/-
A scribble of one stripe length is undone.

The scribble ends before it reaches as far into the second stripe as it begins in the first.  So
where the second stripe is damaged, and the xor with it, the first is not: the good bytes of the
first stripe in front and the xor behind make up the original, mixed where the scribble ends.  The
search goes through all places to mix at and stops at the first that has the checksum.  With the
first stripe back, the xor gives the second one without mixing.
-/
import Parfs.Lib.Crc
import Parfs.Proofs.Parity

namespace Parfs

open Lib

namespace DataProtection

variable (c : DataProtection) {m m' block : ByteMem} {a b blockptr i k p s turns blocknr : Nat}

/-! ### Loading -/

/-- A block with the parity in the place of a stripe. -/
def withParity (m : ByteMem) (blockptr p bad : Nat) : ByteMem := fun x =>
  if x / 512 = bad then m (p + x % 512) else m (blockptr + x)

/-- The stripes from `i` on are loaded, the others stay. -/
theorem restoreLoad_spec (m : ByteMem) (blockptr p bad : Nat) : ∀ (n i : Nat) (block : ByteMem),
    (restoreLoad m blockptr p bad n i block).1 = 0 ∧
    ∀ x < 512 * (i + n), (restoreLoad m blockptr p bad n i block).2 x =
      if 512 * i ≤ x then withParity m blockptr p bad x else block x := by
  intro n
  induction n with
  | zero =>
      intro i block
      refine ⟨rfl, fun x hx => ?_⟩
      rw [if_neg (by omega)]
      rfl
  | succ n ih =>
      intro i block
      have hstep : restoreLoad m blockptr p bad (n + 1) i block = restoreLoad m blockptr p bad n (i + 1)
          (block.write (512 * i) (m.read (if i = bad then p else blockptr + 512 * i) 512)) := by
        rw [restoreLoad]
        exact if_neg (by simp)
      rw [hstep]
      obtain ⟨hret, hload⟩ := ih (i + 1) (block.write (512 * i) (m.read (if i = bad then p else blockptr + 512 * i) 512))
      refine ⟨hret, fun x hx => ?_⟩
      rw [hload x (by omega)]
      by_cases hlater : 512 * (i + 1) ≤ x
      · rw [if_pos hlater, if_pos (by omega)]
      · rw [if_neg hlater]
        by_cases hthis : 512 * i ≤ x
        · obtain ⟨o, rfl⟩ := Nat.exists_eq_add_of_le hthis
          have ho : o < 512 := by omega
          rw [if_pos hthis, ByteMem.write_of_inside (by simpa using ho), List.getD_eq_getElem _ _ (by simpa using ho)]
          simp only [ByteMem.read, List.getElem_map, List.getElem_range, withParity, Nat.mul_add_div (show 0 < 512 by decide),
            Nat.div_eq_of_lt ho, Nat.add_zero, Nat.mul_add_mod, Nat.mod_eq_of_lt ho]
          split
          · rfl
          · rw [Nat.add_assoc]
        · rw [if_neg hthis, ByteMem.write_of_outside (by omega)]

/-- Only the bytes of the block matter for the parity. -/
theorem parityStripe_congr {block block' : ByteMem} (h : ∀ x < 4096, block x = block' x) :
    parityStripe block = parityStripe block' := by
  refine List.map_congr_left fun j hj => xorAll_congr fun strp hstrp => ?_
  rw [List.mem_range] at hj
  exact h _ (by omega)

/-! ### Searching -/

/-- The stripe that the search tries with `i` good bytes. -/
def candidate (badstrip : ByteMem) (recon : List UInt8) (i : Nat) : List UInt8 := badstrip.read 0 i ++ recon.drop i

/-- It has one of the checksums. -/
def Matches (call : RestoreCall) (recon : List UInt8) (i : Nat) : Prop :=
  crc32c 1 (candidate call.badstrip recon i) = call.csum0 ∨ crc32c 1 (candidate call.badstrip recon i) = call.csum1

/-- The search stops at the first match, when there is one. -/
theorem restoreSearch_finds {call : RestoreCall} {recon : List UInt8} (herr : call.nvmmerr = false)
    (hmatch : Matches call recon k) (hlast : k = 0 ∨ call.badstripId ≠ 7) : ∀ (turns i : Nat) (strip : List UInt8),
    i ≤ k → k < i + turns → strip.drop i = recon.drop i → (∀ j < i, ¬Matches call recon j) →
    ∃ j ≤ k, (∀ j' < j, ¬Matches call recon j') ∧ Matches call recon j ∧
      restoreSearch call turns i strip = some (candidate call.badstrip recon j, crc32c 1 (candidate call.badstrip recon j)) := by
  intro turns
  induction turns with
  | zero => intro i strip hlo hhi; omega
  | succ turns ih =>
      intro i strip hlo hhi hstrip hbefore
      have hnow : call.badstrip.read 0 i ++ strip.drop i = candidate call.badstrip recon i := by
        rw [hstrip]
        rfl
      by_cases hthis : Matches call recon i
      · refine ⟨i, hlo, hbefore, hthis, ?_⟩
        rw [restoreSearch, hnow]
        exact if_pos hthis
      · have hne : i ≠ k := by
          rintro rfl
          exact hthis hmatch
        have hmore : restoreSearch call (turns + 1) i strip =
            restoreSearch call turns (i + 1) (candidate call.badstrip recon i) := by
          rw [restoreSearch, hnow]
          refine (if_neg hthis).trans ?_
          rw [if_neg (by simp [herr]), if_neg (by omega)]
        have hdrop : (candidate call.badstrip recon i).drop (i + 1) = recon.drop (i + 1) := by
          unfold candidate
          rw [List.drop_append, List.drop_of_length_le (by simp), ByteMem.read_length, Nat.add_sub_cancel_left,
            List.drop_drop, List.nil_append]
        rw [hmore]
        refine ih (i + 1) _ (by omega) (by omega) hdrop fun j hj => ?_
        rcases Nat.lt_succ_iff_lt_or_eq.1 hj with hlt | rfl
        · exact hbefore j hlt
        · exact hthis

/-! ### A scribble -/

/-- The block's parity stripe is at `p`, as it was computed for the block. -/
structure ParityOf (m : ByteMem) (blocknr p : Nat) : Prop where
  addr : c.novaGetParityAddr blocknr = some p
  stripe : m.read p 512 = novaCalculateBlockParity c.xmm2 fun x => m (c.l.blockAddr blocknr .b4K + x)

/-- `m'` is `m` with `len` bytes of the block changed, from `start` on. -/
structure Scribbled (m m' : ByteMem) (blockptr p start len : Nat) : Prop where
  short : len ≤ 512
  inside : start + len ≤ 4096
  outside : ∀ x, m' x ≠ m x → blockptr + start ≤ x ∧ x < blockptr + start + len
  parity : ∀ o < 512, m' (p + o) = m (p + o)

/-- The stripes that are not what they were. -/
def damaged (m m' : ByteMem) (blockptr : Nat) : List Nat :=
  (List.range 8).filter fun strp => decide (m'.read (blockptr + 512 * strp) 512 ≠ m.read (blockptr + 512 * strp) 512)

theorem mem_damaged : s ∈ damaged m m' blockptr ↔
    s < 8 ∧ m'.read (blockptr + 512 * s) 512 ≠ m.read (blockptr + 512 * s) 512 := by
  unfold damaged
  rw [List.mem_filter, List.mem_range, decide_eq_true_iff]

theorem not_mem_damaged (hs : s < 8) (h : s ∉ damaged m m' blockptr) :
    m'.read (blockptr + 512 * s) 512 = m.read (blockptr + 512 * s) 512 := by
  by_contra hne
  exact h (mem_damaged.2 ⟨hs, hne⟩)

/-- A byte that changed is in a damaged stripe. -/
theorem damaged_of_byte {o : Nat} (hs : s < 8) (ho : o < 512) (hne : m' (blockptr + 512 * s + o) ≠ m (blockptr + 512 * s + o)) :
    s ∈ damaged m m' blockptr := by
  refine mem_damaged.2 ⟨hs, fun hsame => hne ?_⟩
  have hbyte := congrArg (fun l => l.getD o 0) hsame
  simpa [ByteMem.read, List.getD_eq_getElem?_getD, List.getElem?_map, List.getElem?_range ho] using hbyte

section Scribble

variable {start len : Nat} (hscr : Scribbled m m' blockptr p start len)

include hscr

/-- The scribble reaches into each damaged stripe. -/
theorem Scribbled.reaches (hs : s ∈ damaged m m' blockptr) : start < 512 * (s + 1) ∧ 512 * s < start + len := by
  have hne := (mem_damaged.1 hs).2
  by_contra hout
  refine hne (ByteMem.read_congr fun x hlo hhi => ?_)
  by_contra hbyte
  have hx := hscr.outside x hbyte
  omega

/-- Only the bytes of the block are scribbled on. -/
theorem Scribbled.eq_of_damaged_nil (hnil : damaged m m' blockptr = []) : m' = m := by
  funext x
  by_contra hne
  have hx := hscr.outside x hne
  have hin := hscr.inside
  obtain ⟨o, rfl⟩ := Nat.exists_eq_add_of_le (show blockptr ≤ x by omega)
  have hsplit : blockptr + o = blockptr + 512 * (o / 512) + o % 512 := by omega
  rw [hsplit] at hne
  have hmem := damaged_of_byte (by omega) (by omega) hne
  rw [hnil] at hmem
  cases hmem

/-- As far as the scribble reaches into the next stripe, a stripe is good. -/
theorem Scribbled.good_front {o : Nat} (ho : o < start + len - 512 * (a + 1)) :
    m' (blockptr + 512 * a + o) = m (blockptr + 512 * a + o) := by
  by_contra hne
  have hx := hscr.outside _ hne
  have hshort := hscr.short
  omega

/-- Behind it, the stripes other than the first damaged one are good. -/
theorem Scribbled.good_behind {o : Nat} (hfirst : ∀ b ∈ damaged m m' blockptr, a ≤ b) (hs : s < 8) (hne : s ≠ a)
    (ho : o < 512) (hend : start + len - 512 * (a + 1) ≤ o) :
    m' (blockptr + (512 * s + o)) = m (blockptr + (512 * s + o)) := by
  by_contra hbyte
  rw [← Nat.add_assoc] at hbyte
  have hle := hfirst s (damaged_of_byte hs ho hbyte)
  have hx := hscr.outside _ hbyte
  omega

end Scribble

/-! ### The right candidate -/

/-- The xor reconstruction of a stripe. -/
def reconstruct (m : ByteMem) (blockptr p bad : Nat) : List UInt8 :=
  novaCalculateBlockParity c.xmm2 (withParity m blockptr p bad)

theorem reconstruct_eq (m : ByteMem) (blockptr p bad : Nat) : c.reconstruct m blockptr p bad =
    (List.range 512).map fun j => xorAll (fun strp => if strp = bad then m (p + j) else m (blockptr + (512 * strp + j))) 8 := by
  unfold reconstruct
  rw [novaCalculateBlockParity_eq]
  refine List.map_congr_left fun j hj => xorAll_congr fun strp _ => ?_
  rw [List.mem_range] at hj
  unfold withParity
  rw [Nat.mul_add_div (by decide), Nat.div_eq_of_lt hj, Nat.add_zero, Nat.mul_add_mod, Nat.mod_eq_of_lt hj]

variable {c}

/-- A byte of the reconstruction, where the other stripes are good. -/
theorem reconstruct_byte {j : Nat} (hpar : c.ParityOf m blocknr p) (ha : a < 8) (hj : j < 512)
    (hparity : m' (p + j) = m (p + j))
    (hgood : ∀ s < 8, s ≠ a → m' (c.l.blockAddr blocknr .b4K + (512 * s + j)) = m (c.l.blockAddr blocknr .b4K + (512 * s + j))) :
    (c.reconstruct m' (c.l.blockAddr blocknr .b4K) p a).getD j 0 = m (c.l.blockAddr blocknr .b4K + 512 * a + j) := by
  have hstored : m (p + j) = xorAll (fun strp => m (c.l.blockAddr blocknr .b4K + (512 * strp + j))) 8 := by
    have hstripe := congrArg (fun l => l.getD j 0) hpar.stripe
    rw [novaCalculateBlockParity_eq] at hstripe
    simpa [ByteMem.read, parityStripe, List.getD_eq_getElem?_getD, List.getElem?_map, List.getElem?_range hj] using hstripe
  have hfamily : ∀ s < 8, (if s = a then m' (p + j) else m' (c.l.blockAddr blocknr .b4K + (512 * s + j))) =
      if s = a then xorAll (fun strp => m (c.l.blockAddr blocknr .b4K + (512 * strp + j))) 8
      else m (c.l.blockAddr blocknr .b4K + (512 * s + j)) := by
    intro s hs
    by_cases heq : s = a
    · rw [if_pos heq, if_pos heq, hparity, hstored]
    · rw [if_neg heq, if_neg heq, hgood s hs heq]
  rw [reconstruct_eq, List.getD_eq_getElem _ _ (by simpa using hj)]
  simp only [List.getElem_map, List.getElem_range]
  rw [xorAll_congr hfamily, xorAll_recover ha, Nat.add_assoc]

/-- **Mixed where the scribble ends, the stripe is the original.** -/
theorem candidate_eq {start len : Nat} (hpar : c.ParityOf m blocknr p)
    (hscr : Scribbled m m' (c.l.blockAddr blocknr .b4K) p start len) (ha : a ∈ damaged m m' (c.l.blockAddr blocknr .b4K))
    (hfirst : ∀ b ∈ damaged m m' (c.l.blockAddr blocknr .b4K), a ≤ b) :
    candidate (fun x => m' (c.l.blockAddr blocknr .b4K + 512 * a + x)) (c.reconstruct m' (c.l.blockAddr blocknr .b4K) p a)
      (start + len - 512 * (a + 1)) = m.read (c.l.blockAddr blocknr .b4K + 512 * a) 512 := by
  have ha8 := (mem_damaged.1 ha).1
  have hreach := hscr.reaches ha
  have hshort := hscr.short
  have hlength : (c.reconstruct m' (c.l.blockAddr blocknr .b4K) p a).length = 512 := by
    unfold reconstruct
    rw [novaCalculateBlockParity_eq, parityStripe_length]
  have hbyte : ∀ j < 512, (candidate (fun x => m' (c.l.blockAddr blocknr .b4K + 512 * a + x))
      (c.reconstruct m' (c.l.blockAddr blocknr .b4K) p a) (start + len - 512 * (a + 1))).getD j 0 =
      m (c.l.blockAddr blocknr .b4K + 512 * a + j) := by
    intro j hj
    unfold candidate
    by_cases hfront : j < start + len - 512 * (a + 1)
    · rw [List.getD_append _ _ _ _ (by simpa using hfront), List.getD_eq_getElem _ _ (by simpa using hfront)]
      simp only [ByteMem.read, List.getElem_map, List.getElem_range, Nat.zero_add]
      exact hscr.good_front hfront
    · have hat : start + len - 512 * (a + 1) + (j - (start + len - 512 * (a + 1))) = j := by omega
      rw [List.getD_append_right _ _ _ _ (by simpa using Nat.le_of_not_lt hfront), ByteMem.read_length,
        List.getD_eq_getElem?_getD, List.getElem?_drop, hat, ← List.getD_eq_getElem?_getD]
      exact reconstruct_byte hpar ha8 hj (hscr.parity j hj) fun s hs hne =>
        hscr.good_behind hfirst hs hne hj (Nat.le_of_not_lt hfront)
  refine List.ext_getElem (by simp [candidate, hlength]; omega) fun j hj hj' => ?_
  have hj512 : j < 512 := by simpa using hj'
  rw [← List.getD_eq_getElem _ 0, hbyte j hj512]
  simp [ByteMem.read]

/-! ### The calls -/

/-- A call for a stripe with its stored checksum, without a media error. -/
def scribbleCall (blocknr : Nat) (block : ByteMem) (csum : UInt32) (blockptr bad : Nat) (m : ByteMem) : RestoreCall where
  blocknr := blocknr
  badstripId := bad
  badstrip := fun x => m (blockptr + 512 * bad + x)
  nvmmerr := false
  csum0 := csum
  csum1 := csum
  kmallocBlock := some block
  kmallocStrip := true

/-- What a call does whose search finds a stripe. -/
theorem novaRestoreData_found {call : RestoreCall} {strip : List UInt8} {csum : UInt32} (hblock : call.kmallocBlock = some block)
    (hstrip : call.kmallocStrip = true) (hp : c.novaGetParityAddr call.blocknr = some p)
    (hfound : restoreSearch call 512 0 (c.reconstruct m (c.l.blockAddr call.blocknr .b4K) p call.badstripId) =
      some (strip, csum)) :
    c.novaRestoreData call m =
      (0, m.write (c.l.blockAddr call.blocknr .b4K + 512 * call.badstripId) strip, some csum) := by
  obtain ⟨hret, hload⟩ := restoreLoad_spec m (c.l.blockAddr call.blocknr .b4K) p call.badstripId 8 0 block
  have hrecon : novaCalculateBlockParity c.xmm2
      (restoreLoad m (c.l.blockAddr call.blocknr .b4K) p call.badstripId 8 0 block).2 =
      c.reconstruct m (c.l.blockAddr call.blocknr .b4K) p call.badstripId := by
    unfold reconstruct
    rw [novaCalculateBlockParity_eq, novaCalculateBlockParity_eq]
    exact parityStripe_congr fun x hx => (hload x hx).trans (if_pos (Nat.zero_le _))
  obtain ⟨loaded, hloaded⟩ : ∃ loaded, restoreLoad m (c.l.blockAddr call.blocknr .b4K) p call.badstripId 8 0 block = loaded :=
    ⟨_, rfl⟩
  rw [hloaded] at hret hrecon
  unfold novaRestoreData
  rw [hblock, hstrip, hp]
  unfold NvmLayout.blockAddr at hloaded hfound hrecon
  simp only [hloaded, hret, hrecon, hfound, Int.lt_irrefl, if_false]
  rfl

/-- **A failing call writes nothing.** -/
theorem novaRestoreData_failed (c : DataProtection) (call : RestoreCall) (m : ByteMem) (hret : (c.novaRestoreData call m).1 ≠ 0) :
    (c.novaRestoreData call m).2.1 = m := by
  revert hret
  unfold novaRestoreData
  dsimp only
  split
  · split
    · exact fun _ => rfl
    · rename_i block _ _ _ parity _
      obtain ⟨hload, -⟩ := restoreLoad_spec m (c.l.novaGetVirtAddrFromOffset (c.l.novaGetBlockOff call.blocknr .b4K .data) .data)
        parity call.badstripId 8 0 block
      rw [hload, if_neg (by decide)]
      split
      · exact fun hret => absurd rfl hret
      · exact fun _ => rfl
  · exact fun _ => rfl

/-- No stripe that the search for `bad` tries has the checksum of the original by accident. -/
def NoOtherCandidate (c : DataProtection) (m m' : ByteMem) (blockptr p bad : Nat) : Prop :=
  ∀ i < 512, (∀ j < i, crc32c 1 (candidate (fun x => m' (blockptr + 512 * bad + x)) (c.reconstruct m' blockptr p bad) j) ≠
      crc32c 1 (m.read (blockptr + 512 * bad) 512)) →
    crc32c 1 (candidate (fun x => m' (blockptr + 512 * bad + x)) (c.reconstruct m' blockptr p bad) i) =
      crc32c 1 (m.read (blockptr + 512 * bad) 512) →
    candidate (fun x => m' (blockptr + 512 * bad + x)) (c.reconstruct m' blockptr p bad) i = m.read (blockptr + 512 * bad) 512

/-- The first damaged stripe is restored. -/
theorem novaRestoreData_first {start len : Nat} {rest : List Nat} (block : ByteMem) (hpar : c.ParityOf m blocknr p)
    (hscr : Scribbled m m' (c.l.blockAddr blocknr .b4K) p start len)
    (hdam : damaged m m' (c.l.blockAddr blocknr .b4K) = a :: rest)
    (hno : c.NoOtherCandidate m m' (c.l.blockAddr blocknr .b4K) p a) :
    c.novaRestoreData (scribbleCall blocknr block (stripeCrc m (c.l.blockAddr blocknr .b4K + 512 * a))
        (c.l.blockAddr blocknr .b4K) a m') m' =
      (0, m'.write (c.l.blockAddr blocknr .b4K + 512 * a) (m.read (c.l.blockAddr blocknr .b4K + 512 * a) 512),
        some (stripeCrc m (c.l.blockAddr blocknr .b4K + 512 * a))) := by
  have ha : a ∈ damaged m m' (c.l.blockAddr blocknr .b4K) := by rw [hdam]; exact List.mem_cons_self
  have hsorted : (damaged m m' (c.l.blockAddr blocknr .b4K)).Pairwise (· < ·) := List.pairwise_lt_range.filter _
  have hfirst : ∀ b ∈ damaged m m' (c.l.blockAddr blocknr .b4K), a ≤ b := by
    rw [hdam, List.pairwise_cons] at hsorted
    rw [hdam]
    intro b hb
    rcases List.mem_cons.1 hb with rfl | hb
    · exact le_refl _
    · exact (hsorted.1 b hb).le
  have hreach := hscr.reaches ha
  have hshort := hscr.short
  have hinside := hscr.inside
  obtain ⟨call, hcall⟩ : ∃ call, call = scribbleCall blocknr block (stripeCrc m (c.l.blockAddr blocknr .b4K + 512 * a))
    (c.l.blockAddr blocknr .b4K) a m' := ⟨_, rfl⟩
  have hmatches : ∀ i, Matches call (c.reconstruct m' (c.l.blockAddr blocknr .b4K) p a) i ↔
      crc32c 1 (candidate (fun x => m' (c.l.blockAddr blocknr .b4K + 512 * a + x))
        (c.reconstruct m' (c.l.blockAddr blocknr .b4K) p a) i) = crc32c 1 (m.read (c.l.blockAddr blocknr .b4K + 512 * a) 512) := by
    intro i
    simp only [hcall, Matches, scribbleCall, stripeCrc, or_self]
  have hgood : Matches call (c.reconstruct m' (c.l.blockAddr blocknr .b4K) p a) (start + len - 512 * (a + 1)) :=
    (hmatches _).2 (congrArg _ (candidate_eq hpar hscr ha hfirst))
  have hlast : start + len - 512 * (a + 1) = 0 ∨ call.badstripId ≠ 7 := by
    rw [hcall]
    show _ ∨ a ≠ 7
    omega
  obtain ⟨j, hj, hbefore, hmatch, hsearch⟩ := restoreSearch_finds (by rw [hcall]; rfl) hgood hlast 512 0
    (c.reconstruct m' (c.l.blockAddr blocknr .b4K) p a) (Nat.zero_le _) (by omega) rfl fun j hj => by omega
  have horig := hno j (by omega) (fun j' hj' h => hbefore j' hj' ((hmatches j').2 h)) ((hmatches j).1 hmatch)
  have hbad : call.badstrip = fun x => m' (c.l.blockAddr blocknr .b4K + 512 * a + x) := by rw [hcall]; rfl
  have hid : call.badstripId = a ∧ call.blocknr = blocknr := by rw [hcall]; exact ⟨rfl, rfl⟩
  rw [hbad, horig] at hsearch
  have hfound := @novaRestoreData_found c m' block p call _ _ (by rw [hcall]; rfl) (by rw [hcall]; rfl)
    (by rw [hid.2]; exact hpar.addr) (by rw [hid.1, hid.2]; exact hsearch)
  rw [hid.1, hid.2] at hfound
  rw [← hcall]
  exact hfound

/-- The memory with the stripe restored is less damaged. -/
theorem Scribbled.restored {start len : Nat} {rest : List Nat} (hscr : Scribbled m m' blockptr p start len)
    (hdam : damaged m m' blockptr = a :: rest) :
    Scribbled m (m'.write (blockptr + 512 * a) (m.read (blockptr + 512 * a) 512)) blockptr p start len ∧
    damaged m (m'.write (blockptr + 512 * a) (m.read (blockptr + 512 * a) 512)) blockptr = rest := by
  have hbytes : ∀ x, m'.write (blockptr + 512 * a) (m.read (blockptr + 512 * a) 512) x =
      if blockptr + 512 * a ≤ x ∧ x < blockptr + 512 * a + 512 then m x else m' x := by
    intro x
    by_cases hx : blockptr + 512 * a ≤ x ∧ x < blockptr + 512 * a + 512
    · obtain ⟨o, rfl⟩ := Nat.exists_eq_add_of_le hx.1
      have ho : o < 512 := by omega
      rw [if_pos hx, ByteMem.write_of_inside (by simpa using ho), List.getD_eq_getElem _ _ (by simpa using ho)]
      simp [ByteMem.read]
    · rw [if_neg hx, ByteMem.write_of_outside (by rw [ByteMem.read_length]; omega)]
  refine ⟨⟨hscr.short, hscr.inside, fun x hne => ?_, fun o ho => ?_⟩, ?_⟩
  · rw [hbytes] at hne
    split at hne
    · exact absurd rfl hne
    · exact hscr.outside x hne
  · rw [hbytes, hscr.parity o ho, ite_self]
  · have hstripes : ∀ s, (m'.write (blockptr + 512 * a) (m.read (blockptr + 512 * a) 512)).read (blockptr + 512 * s) 512 ≠
        m.read (blockptr + 512 * s) 512 ↔ m'.read (blockptr + 512 * s) 512 ≠ m.read (blockptr + 512 * s) 512 ∧ s ≠ a := by
      intro s
      by_cases hs : s = a
      · subst hs
        have hsame : (m'.write (blockptr + 512 * s) (m.read (blockptr + 512 * s) 512)).read (blockptr + 512 * s) 512 =
            m.read (blockptr + 512 * s) 512 := by
          have h := @ByteMem.read_write m' (blockptr + 512 * s) (m.read (blockptr + 512 * s) 512)
          rwa [ByteMem.read_length] at h
        simp [hsame]
      · rw [ByteMem.read_write_of_disjoint (by rw [ByteMem.read_length]; omega)]
        simp [hs]
    have hnodup : (damaged m m' blockptr).Nodup := (List.nodup_range).filter _
    have hrest : damaged m (m'.write (blockptr + 512 * a) (m.read (blockptr + 512 * a) 512)) blockptr =
        (damaged m m' blockptr).filter fun s => decide (s ≠ a) := by
      unfold damaged
      rw [List.filter_filter]
      refine List.filter_congr fun s _ => ?_
      rw [← Bool.decide_and]
      exact decide_eq_decide.2 ((hstripes s).trans and_comm)
    rw [hdam, List.nodup_cons] at hnodup
    rw [hrest, hdam, List.filter_cons, if_neg (by simp), List.filter_eq_self]
    intro s hs
    rw [decide_eq_true_iff]
    rintro rfl
    exact hnodup.1 hs

/-- When no other stripe is damaged, the first candidate is the original. -/
theorem noOther_of_alone {start len : Nat} (hpar : c.ParityOf m blocknr p)
    (hscr : Scribbled m m' (c.l.blockAddr blocknr .b4K) p start len) (ha : a ∈ damaged m m' (c.l.blockAddr blocknr .b4K))
    (hfirst : ∀ b ∈ damaged m m' (c.l.blockAddr blocknr .b4K), a ≤ b) (hend : start + len ≤ 512 * (a + 1)) :
    c.NoOtherCandidate m m' (c.l.blockAddr blocknr .b4K) p a := by
  have hzero := candidate_eq hpar hscr ha hfirst
  rw [Nat.sub_eq_zero_of_le hend] at hzero
  intro i _ hbefore _
  rcases Nat.eq_zero_or_pos i with rfl | hpos
  · exact hzero
  · exact absurd (congrArg _ hzero) (hbefore 0 hpos)

/-- `nova_restore_data` on the stripes one after the other, each with its stored checksum. -/
def restoreRun (c : DataProtection) (blocknr : Nat) (block : ByteMem) (csum : Nat → UInt32) :
    List Nat → ByteMem → List Int × ByteMem
  | [], m => ([], m)
  | bad :: bads, m =>
    let (ret, m, _) := c.novaRestoreData (scribbleCall blocknr block (csum bad) (c.l.blockAddr blocknr .b4K) bad m) m
    let (rets, m) := restoreRun c blocknr block csum bads m
    (ret :: rets, m)

/-- **Parity recovers any scribble of one stripe length**, and a call that fails leaves the memory
as it was. -/
theorem novaRestoreData_recovers {start len : Nat} {csum : Nat → UInt32} (block : ByteMem) (hpar : c.ParityOf m blocknr p)
    (hcsum : ∀ s < 8, csum s = stripeCrc m (c.l.blockAddr blocknr .b4K + 512 * s))
    (hscr : Scribbled m m' (c.l.blockAddr blocknr .b4K) p start len)
    (hno : ∀ a ∈ (damaged m m' (c.l.blockAddr blocknr .b4K)).head?, c.NoOtherCandidate m m' (c.l.blockAddr blocknr .b4K) p a) :
    (c.restoreRun blocknr block csum (damaged m m' (c.l.blockAddr blocknr .b4K)) m' =
      ((damaged m m' (c.l.blockAddr blocknr .b4K)).map fun _ => 0, m)) ∧
    ∀ (call : RestoreCall) (m : ByteMem), (c.novaRestoreData call m).1 ≠ 0 → (c.novaRestoreData call m).2.1 = m := by
  refine ⟨?_, novaRestoreData_failed c⟩
  cases hdam : damaged m m' (c.l.blockAddr blocknr .b4K) with
  | nil => rw [hscr.eq_of_damaged_nil hdam]; rfl
  | cons a rest =>
      have ha : a ∈ damaged m m' (c.l.blockAddr blocknr .b4K) := by rw [hdam]; exact List.mem_cons_self
      have hsorted : (damaged m m' (c.l.blockAddr blocknr .b4K)).Pairwise (· < ·) := List.pairwise_lt_range.filter _
      have hreach := hscr.reaches ha
      have hshort := hscr.short
      have hfound := novaRestoreData_first block hpar hscr hdam (hno a (by rw [hdam]; rfl))
      rw [← hcsum a (mem_damaged.1 ha).1] at hfound
      obtain ⟨hscr', hdam'⟩ := hscr.restored hdam
      rw [restoreRun, hfound]
      dsimp only
      rw [hdam, List.pairwise_cons] at hsorted
      cases rest with
      | nil => rw [hscr'.eq_of_damaged_nil hdam']; rfl
      | cons b rest =>
          have hb : b ∈ damaged m m' (c.l.blockAddr blocknr .b4K) := by rw [hdam]; simp
          have hreach' := hscr.reaches hb
          have hab := hsorted.1 b List.mem_cons_self
          have hb' : b ∈ damaged m (m'.write (c.l.blockAddr blocknr .b4K + 512 * a)
              (m.read (c.l.blockAddr blocknr .b4K + 512 * a) 512)) (c.l.blockAddr blocknr .b4K) := by
            rw [hdam']; exact List.mem_cons_self
          have hnone : rest = [] := by
            refine List.eq_nil_iff_forall_not_mem.2 fun d hd => ?_
            have hbd := (List.pairwise_cons.1 hsorted.2).1 d hd
            have hreach'' := hscr.reaches (s := d) (by rw [hdam]; simp [hd])
            omega
          subst hnone
          have hnext := novaRestoreData_first block hpar hscr' hdam' (noOther_of_alone hpar hscr' hb'
            (by rw [hdam']; simp) (by omega))
          rw [← hcsum b (mem_damaged.1 hb).1] at hnext
          obtain ⟨hscr'', hdam''⟩ := hscr'.restored hdam'
          rw [restoreRun, hnext]
          dsimp only
          rw [hscr''.eq_of_damaged_nil hdam'']
          rfl

/-! ### A scribble over two stripes -/

/-- Nothing but zeros. -/
def zeroMem : ByteMem := fun _ => 0

/-- The last byte of the first stripe of block 1 and the first byte of its second one. -/
def twoBytes : ByteMem := fun x => if x = 0x200001000 + 511 ∨ x = 0x200001000 + 512 then 1 else 0

theorem twoBytes_scribbled : Scribbled zeroMem twoBytes ((evenProtection true true).l.blockAddr 1 .b4K) 0x100000000 511 2 := by
  have hblock : (evenProtection true true).l.blockAddr 1 .b4K = 0x200001000 := by decide
  rw [hblock]
  refine ⟨by decide, by decide, fun x hne => ?_, fun o ho => ?_⟩
  · by_contra hout
    exact hne (if_neg (by omega))
  · exact if_neg (by omega)

theorem twoBytes_damaged : damaged zeroMem twoBytes ((evenProtection true true).l.blockAddr 1 .b4K) = [0, 1] := by
  decide +kernel

theorem twoBytes_reconstruct : (evenProtection true true).reconstruct twoBytes
    ((evenProtection true true).l.blockAddr 1 .b4K) 0x100000000 0 = 1 :: List.replicate 511 0 := by
  rw [reconstruct_eq]
  decide +kernel

theorem zeroMem_parityOf : (evenProtection true true).ParityOf zeroMem 1 0x100000000 := by
  refine ⟨by decide, ?_⟩
  rw [novaCalculateBlockParity_eq]
  refine List.map_congr_left fun j _ => ?_
  show (0 : UInt8) = xorAll (fun _ => 0) 8
  decide

/-- With no good byte the first byte is wrong, and with one the stripe is the original. -/
theorem twoBytes_noOther : (evenProtection true true).NoOtherCandidate zeroMem twoBytes
    ((evenProtection true true).l.blockAddr 1 .b4K) 0x100000000 0 := by
  have horig : zeroMem.read ((evenProtection true true).l.blockAddr 1 .b4K + 512 * 0) 512 = 0 :: List.replicate 511 0 := by
    decide +kernel
  have hone : candidate (fun x => twoBytes ((evenProtection true true).l.blockAddr 1 .b4K + 512 * 0 + x))
      (1 :: List.replicate 511 0) 1 = 0 :: List.replicate 511 0 := by
    decide +kernel
  have hzero : candidate (fun x => twoBytes ((evenProtection true true).l.blockAddr 1 .b4K + 512 * 0 + x))
      (1 :: List.replicate 511 0) 0 = 1 :: List.replicate 511 0 := rfl
  unfold NoOtherCandidate
  rw [twoBytes_reconstruct, horig]
  generalize List.replicate 511 (0 : UInt8) = tail at hone hzero
  intro i _ hbefore hmatch
  rcases i with _ | _ | i
  · rw [hzero] at hmatch
    exact absurd hmatch (crc32c_ne_of_byte 1 [] tail (by decide))
  · exact hone
  · exact absurd (congrArg _ hone) (hbefore 1 (by omega))

theorem novaRestoreData_recovers_two : (evenProtection true true).restoreRun 1 (fun _ => 7)
    (fun strp => stripeCrc zeroMem ((evenProtection true true).l.blockAddr 1 .b4K + 512 * strp)) [0, 1] twoBytes =
      ([0, 0], zeroMem) := by
  have hrun := (novaRestoreData_recovers (fun _ => 7) zeroMem_parityOf (fun _ _ => rfl) twoBytes_scribbled fun a ha => by
    rw [twoBytes_damaged] at ha
    obtain rfl := Option.some.inj ha
    exact twoBytes_noOther).1
  rwa [twoBytes_damaged] at hrun

end DataProtection

end Parfs
