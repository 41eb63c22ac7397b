/-
What the loop unrolled by eight leaves in memory.

Words or bytes, and eight stripes side by side or one after the other: the parity is the xor of
the stripes and a checksum is that of the stripe.  So what is stored is right, and what goes wrong
is where: with SSE 4.2 the checksums go to the slot of the block whose number is that of the first
stripe, and without it the plain routine is given the block without its first stripe, since the
loop has advanced the pointer.

The parity stripe is written as well, and nothing keeps it away from the slots.  A slot inside it
shows the parity when that is written last, whatever the checksums are.
-/
import Parfs.Proofs.CsumSlots
import Parfs.Parity

namespace Parfs

open Lib

variable {block : ByteMem}

/-! ### Parity -/

/-- The parity stripe, byte by byte. -/
def parityStripe (block : ByteMem) : List UInt8 := (List.range 512).map fun j => xorAll (fun strp => block (512 * strp + j)) 8

theorem parityWords_eq {w : Nat} (hw : 0 < w) (hdvd : w * (512 / w) = 512) : parityWords w block = parityStripe block := by
  unfold parityWords parityStripe
  rw [flatMap_leBytes hw, hdvd]
  refine List.map_congr_left fun j hj => ?_
  have hmod := Nat.mod_lt j hw
  have hsplit := Nat.div_add_mod j w
  have hbyte : ∀ s, byteAt (block.word (512 * s + w * (j / w)) w) (j % w) = block (512 * s + j) := by
    intro s
    rw [byteAt_word hmod, Nat.add_assoc, hsplit]
  have hfirst : byteAt (block.word (w * (j / w)) w) (j % w) = block j := by
    rw [byteAt_word hmod, hsplit]
  rw [byteAt_foldl_xor, hfirst]
  simp only [hbyte]
  simp [xorAll, List.range_succ]

/-- **Words make no difference.** -/
theorem novaCalculateBlockParity_eq (xmm2 : Bool) : novaCalculateBlockParity xmm2 block = parityStripe block := by
  unfold novaCalculateBlockParity
  cases xmm2
  · exact parityWords_eq (by decide) (by decide)
  · exact parityWords_eq (by decide) (by decide)

@[simp] theorem parityStripe_length : (parityStripe block).length = 512 := by simp [parityStripe]

/-- Every configuration starts the metadata with a device. -/
theorem metaStartVirt_aligned {metaSeparate : Bool} {devs : List PmemDevice} {l : NvmLayout} (hdevs : DevicesOk devs)
    (haccept : novaConfigNvmm metaSeparate devs = .ok l) : l.metaStartVirt % 4096 = 0 := by
  match devs with
  | [] => cases haccept
  | [d] =>
      obtain rfl := checked_inj haccept
      exact (hdevs.aligned d (by simp)).1
  | [d₀, d₁] =>
      obtain rfl := checked_inj haccept
      cases metaSeparate <;> exact (hdevs.aligned d₀ (by simp)).1
  | d₀ :: d₁ :: d₂ :: ds =>
      obtain rfl := checked_inj haccept
      exact (hdevs.aligned d₀ (by simp)).1

namespace DataProtection

/-! ### The loop -/

theorem novaCrc32cQword_word (a : Nat) (crc : UInt32) :
    novaCrc32cQword (block.word a 8) crc = crc32c crc (block.read a 8) := by
  unfold novaCrc32cQword
  rw [leBytes_word]

/-- The word of the parity in a turn. -/
def parityWord (block : ByteMem) : Nat :=
  let qwd k := block.word (512 * k) 8
  qwd 0 ^^^ qwd 1 ^^^ qwd 2 ^^^ qwd 3 ^^^ qwd 4 ^^^ qwd 5 ^^^ qwd 6 ^^^ qwd 7

theorem read_shift (m : ByteMem) (o a n : Nat) : ByteMem.read (fun x => m (o + x)) a n = m.read (o + a) n := by
  unfold ByteMem.read
  simp only [Nat.add_assoc]

section Run

variable (csum parity : Bool)

theorem run_block : ∀ (n : Nat) (u : Unrolled), (Unrolled.run csum parity n u).block = fun x => u.block (8 * n + x) := by
  intro n
  induction n with
  | zero => intro u; simp [Unrolled.run]
  | succ n ih =>
      intro u
      rw [Unrolled.run, ih]
      funext x
      show u.block (8 + (8 * n + x)) = _
      congr 1
      omega

/-- The accumulators have the checksums of the words so far. -/
theorem run_acc : ∀ (n : Nat) (u : Unrolled) (k : Nat),
    (Unrolled.run true parity n u).acc k = crc32c (u.acc k) (u.block.read (512 * k) (8 * n)) := by
  intro n
  induction n with
  | zero => intro u k; rfl
  | succ n ih =>
      intro u k
      have hturn : (u.turn true parity).acc k = crc32c (u.acc k) (u.block.read (512 * k) 8) :=
        novaCrc32cQword_word _ _
      have hread : (u.turn true parity).block.read (512 * k) (8 * n) = u.block.read (512 * k + 8) (8 * n) := by
        show ByteMem.read (fun x => u.block (8 + x)) _ _ = _
        rw [read_shift, Nat.add_comm]
      rw [Unrolled.run, ih, hturn, hread, Nat.mul_succ, Nat.add_comm (8 * n), ByteMem.read_append]
      exact (List.foldl_append ..).symm

theorem run_parity : ∀ (n : Nat) (u : Unrolled), (Unrolled.run csum true n u).parity =
    u.parity ++ (List.range n).flatMap (fun i => leBytes 8 (parityWord fun x => u.block (8 * i + x))) := by
  intro n
  induction n with
  | zero => intro u; simp [Unrolled.run]
  | succ n ih =>
      intro u
      have hturn : (u.turn csum true).parity = u.parity ++ leBytes 8 (parityWord u.block) := rfl
      have hrest : ∀ i, (parityWord fun x => (u.turn csum true).block (8 * i + x)) =
          parityWord fun x => u.block (8 * (i + 1) + x) := by
        intro i
        have hmem : (fun x => (u.turn csum true).block (8 * i + x)) = fun x => u.block (8 * (i + 1) + x) := by
          funext x
          show u.block (8 + (8 * i + x)) = _
          congr 1
          omega
        rw [hmem]
      rw [Unrolled.run, ih, hturn, List.append_assoc, List.range_succ_eq_map, List.flatMap_cons, List.flatMap_map]
      simp only [hrest, Nat.mul_zero, Nat.zero_add]

end Run

/-- The parity that the loop collects is that of the block. -/
theorem unrolled_parity : (List.range 64).flatMap (fun i => leBytes 8 (parityWord fun x => block (8 * i + x))) =
    parityStripe block := by
  rw [flatMap_leBytes (by decide)]
  refine List.map_congr_left fun j hj => ?_
  have hmod := Nat.mod_lt j (show 0 < 8 by decide)
  have hsplit := Nat.div_add_mod j 8
  have hbyte : ∀ k, byteAt (ByteMem.word (fun x => block (8 * (j / 8) + x)) (512 * k) 8) (j % 8) = block (512 * k + j) := by
    intro k
    rw [byteAt_word hmod]
    congr 1
    omega
  unfold parityWord
  simp only [byteAt_xor, hbyte]
  simp [xorAll, List.range_succ]

/-! ### What the two ways store -/

variable (c : DataProtection) {blocknr : Nat}

/-- The checksums of eight stripes. -/
def stripeCrcs (block : ByteMem) (ptr : Nat) : List UInt8 := crcBytes 8 fun strp => stripeCrc block (ptr + 512 * strp)

theorem stripeCrcs_length (ptr : Nat) : (stripeCrcs block ptr).length = 32 := by
  unfold stripeCrcs crcBytes
  rw [flatMap_leBytes (by decide), List.length_map, List.length_range]

/-- `nova_update_block_csum` followed by `nova_update_block_parity`, as far as they are enabled. -/
def updateBlock (block : ByteMem) (blocknr : Nat) (m : ByteMem) : Option ByteMem := do
  let m ← if c.dataCsum then (c.novaUpdateBlockCsum false 4096 blocknr block m).map Prod.snd else some m
  if c.dataParity then c.novaUpdateBlockParity true (some block) blocknr false m else some m

/-- The store of checksums. -/
def storeCsums (slot : Option Nat) (crcs : List UInt8) (m : ByteMem) : Option ByteMem :=
  if c.dataCsum then store slot crcs m else some m

/-- The store of the parity. -/
def storeParity (block : ByteMem) (blocknr : Nat) (m : ByteMem) : Option ByteMem :=
  if c.dataParity then store (c.novaGetParityAddr blocknr) (parityStripe block) m else some m

/-- `strp_nr` -/
def strpNr (blocknr : Nat) : Nat := c.l.novaGetBlockOff blocknr .b4K .data / 512

theorem novaUpdateBlockCsum_block (blocknr : Nat) (block m : ByteMem) :
    (c.novaUpdateBlockCsum false 4096 blocknr block m).map Prod.snd =
      store (c.novaGetDataCsumAddr blocknr) (stripeCrcs block 0) m := by
  have hstripes : (fun strp => stripeCrc block (512 * strp)) = fun strp => stripeCrc block (0 + 512 * strp) := by
    simp only [Nat.zero_add]
  unfold novaUpdateBlockCsum novaStripeCsumCrc
  rw [if_neg (by decide)]
  simp only [Nat.reduceDiv, Nat.reduceMod, if_true, stripeCsumBlocks]
  unfold stripeCrcs store
  rw [← hstripes]
  cases c.novaGetDataCsumAddr blocknr <;> rfl

theorem updateBlock_eq (blocknr : Nat) (block m : ByteMem) : c.updateBlock block blocknr m =
    (c.storeCsums (c.novaGetDataCsumAddr blocknr) (stripeCrcs block 0) m).bind (c.storeParity block blocknr) := by
  unfold updateBlock storeCsums storeParity
  rw [novaUpdateBlockCsum_block]
  simp only [novaUpdateBlockParity, novaCalculateBlockParity_eq]
  cases c.dataCsum <;> rfl

/-- The loop's checksums and parity. -/
theorem run_start (csum parity : Bool) :
    (csum = true → crcBytes 8 (Unrolled.run csum parity 64 ⟨block, fun _ => 1, []⟩).acc = stripeCrcs block 0) ∧
    (parity = true → (Unrolled.run csum parity 64 ⟨block, fun _ => 1, []⟩).parity = parityStripe block) := by
  refine ⟨?_, ?_⟩
  · rintro rfl
    have hacc : (Unrolled.run true parity 64 ⟨block, fun _ => 1, []⟩).acc = fun strp => stripeCrc block (0 + 512 * strp) := by
      funext strp
      rw [Nat.zero_add]
      exact run_acc parity 64 _ strp
    rw [hacc]
    rfl
  · rintro rfl
    rw [run_parity, List.nil_append]
    exact unrolled_parity

/-- A whole block of 4K. -/
theorem novaUpdateBlockCsumParity_block (blocknr : Nat) (block m : ByteMem) :
    c.novaUpdateBlockCsumParity true .b4K block blocknr 0 4096 m = (do
      let u := Unrolled.run (c.dataCsum && c.xmm42) c.dataParity 64 ⟨block, fun _ => 1, []⟩
      let m ← if c.xmm42 && c.dataCsum then store (c.novaGetDataCsumAddr (c.strpNr blocknr)) (crcBytes 8 u.acc) m else some m
      let m ← if c.dataParity then store (c.novaGetParityAddr blocknr) u.parity m else some m
      let m ← if c.dataCsum && !c.xmm42 then
          (c.novaUpdateBlockCsum false 4096 blocknr u.block m).map Prod.snd else some m
      some m) := by
  have hunroll : decide (4096 * novaGetNumblocks .b4K / 512 = 8 ∧ (subU64 (0 % 512 + 4096) 1 / 512 + 1) % 2 ^ 32 = 8) = true := by
    decide
  unfold novaUpdateBlockCsumParity
  dsimp only
  rw [hunroll]
  simp only [Bool.true_and, Bool.or_true, Bool.not_true, Bool.and_false, Bool.false_eq_true, if_false, if_true]
  rfl

/-- With SSE 4.2 the loop does everything. -/
theorem novaUpdateBlockCsumParity_sse (hsse : c.xmm42 = true) (blocknr : Nat) (block m : ByteMem) :
    c.novaUpdateBlockCsumParity true .b4K block blocknr 0 4096 m =
      (c.storeCsums (c.novaGetDataCsumAddr (c.strpNr blocknr)) (stripeCrcs block 0) m).bind (c.storeParity block blocknr) := by
  unfold storeCsums storeParity
  obtain ⟨hcrcs, hparity⟩ := @run_start block c.dataCsum c.dataParity
  rw [novaUpdateBlockCsumParity_block, hsse]
  simp only [Bool.and_true, Bool.true_and, Bool.not_true, Bool.and_false, Bool.false_eq_true, if_false]
  cases hc : c.dataCsum with
  | false =>
      cases hp : c.dataParity with
      | false => simp
      | true =>
          rw [hc, hp] at hparity
          rw [hparity rfl]
          simp
  | true =>
      rw [hc] at hcrcs hparity
      rw [hcrcs rfl]
      cases hp : c.dataParity with
      | false => simp
      | true =>
          rw [hp] at hparity
          rw [hparity rfl]
          simp

/-- Without it the checksums are left to the plain routine, behind the parity. -/
theorem novaUpdateBlockCsumParity_plain (hsse : c.xmm42 = false) (blocknr : Nat) (block m : ByteMem) :
    c.novaUpdateBlockCsumParity true .b4K block blocknr 0 4096 m =
      (c.storeParity block blocknr m).bind (c.storeCsums (c.novaGetDataCsumAddr blocknr) (stripeCrcs block 512)) := by
  unfold storeCsums storeParity
  obtain ⟨-, hparity⟩ := @run_start block false c.dataParity
  have hstripe : ∀ strp, stripeCrc (fun x => block (512 + x)) (0 + 512 * strp) = stripeCrc block (512 + 512 * strp) := by
    intro strp
    unfold stripeCrc
    rw [read_shift, Nat.zero_add]
  have hcrcs : stripeCrcs (fun x => block (512 + x)) 0 = stripeCrcs block 512 := by
    unfold stripeCrcs
    simp only [hstripe]
  rw [novaUpdateBlockCsumParity_block, hsse]
  simp only [Bool.and_false, Bool.false_and, Bool.not_false, Bool.and_true, Bool.false_eq_true, if_false,
    novaUpdateBlockCsum_block, run_block, hcrcs]
  cases hp : c.dataParity with
  | false => simp
  | true =>
      rw [hp] at hparity
      rw [hparity rfl]
      simp

/-! ### Where the stores go -/

/-- Slots are where multiples of their size are. -/
theorem slot_aligned (harea : MetaArea c.l) (halign : c.l.metaStartVirt % 4096 = 0) {b a : Nat}
    (ha : c.novaGetDataCsumAddr b = some a) : a % 32 = 0 := by
  unfold novaGetDataCsumAddr at ha
  split at ha
  · cases ha
  · have hfound : 0 < c.g.perListBlocks .data ∧ b / c.g.perListBlocks .data < c.g.cpus := by
      unfold NvmLayout.novaGetDataCsumAddr at ha
      dsimp only at ha
      split at ha
      · cases ha
      · split at ha
        · cases ha
        · omega
    have heq := @novaGetDataCsumAddr_eq c.l c.g c.r _ harea hfound.2 (b % c.g.perListBlocks .data) (Nat.mod_lt _ hfound.1)
    rw [Nat.div_add_mod, ha] at heq
    obtain rfl := Option.some.inj heq
    omega

/-- A block of some CPU has a slot. -/
theorem slot_some (harea : MetaArea c.l) (hcsum : c.dataCsum = true) (hper : 0 < c.g.perListBlocks .data)
    (hcpu : blocknr / c.g.perListBlocks .data < c.g.cpus) : ∃ a, c.novaGetDataCsumAddr blocknr = some a := by
  have heq := @novaGetDataCsumAddr_eq c.l c.g c.r _ harea hcpu (blocknr % c.g.perListBlocks .data) (Nat.mod_lt _ hper)
  rw [Nat.div_add_mod] at heq
  unfold novaGetDataCsumAddr
  rw [hcsum]
  exact ⟨_, heq⟩

/-- Parity stripes start a page. -/
theorem parity_aligned (halign : c.l.metaStartVirt % 4096 = 0) {b p : Nat} (hp : c.novaGetParityAddr b = some p) :
    p % 4096 = 0 := by
  unfold novaGetParityAddr at hp
  dsimp only at hp
  split at hp
  · cases hp
  · split at hp
    · cases hp
    · obtain rfl := Option.some.inj hp
      unfold NvmLayout.novaGetVirtAddrFromOffset NvmLayout.novaGetBlockOff
      dsimp only
      omega

theorem parity_some (hparity : c.dataParity = true) (hper : 0 < c.g.perListBlocks .data)
    (hcpu : blocknr / c.g.perListBlocks .data < c.g.cpus) : ∃ p, c.novaGetParityAddr blocknr = some p := by
  unfold novaGetParityAddr
  dsimp only
  rw [hparity, if_neg (by simp; omega), if_neg (by omega)]
  exact ⟨_, rfl⟩

/-- The slot lies in the parity stripe of the block. -/
def SlotInParity (blocknr a : Nat) : Prop := ∃ p, c.novaGetParityAddr blocknr = some p ∧ p ≤ a ∧ a + 32 ≤ p + 512

section Store

variable {c} {a a' : Nat} {bs : List UInt8} {m : ByteMem}

/-- Parity is stored to its stripe, or not at all. -/
theorem storeParity_cases (hper : 0 < c.g.perListBlocks .data) (hcpu : blocknr / c.g.perListBlocks .data < c.g.cpus) :
    (∃ p, c.novaGetParityAddr blocknr = some p ∧ ∀ m, c.storeParity block blocknr m = some (m.write p (parityStripe block))) ∨
    (c.novaGetParityAddr blocknr = none ∧ ∀ m, c.storeParity block blocknr m = some m) := by
  unfold storeParity
  cases hp : c.dataParity with
  | true =>
      obtain ⟨p, hp⟩ := parity_some c hp hper hcpu
      rw [hp]
      exact Or.inl ⟨p, rfl, fun m => rfl⟩
  | false =>
      refine Or.inr ⟨?_, fun m => rfl⟩
      unfold novaGetParityAddr
      simp [hp]

/-- What the parity is stored over does not matter. -/
theorem storeParity_covers (hin : c.SlotInParity blocknr a) (hbs : bs.length = 32) :
    c.storeParity block blocknr (m.write a bs) = c.storeParity block blocknr m := by
  obtain ⟨p, hp, hlo, hhi⟩ := hin
  unfold storeParity store
  rw [hp]
  split
  · simp only [Option.map_some]
    rw [ByteMem.write_covered hlo (by rw [parityStripe_length]; omega)]
  · rename_i hoff
    simp [novaGetParityAddr, hoff] at hp

/-- A slot that is not in the stripe is beside it. -/
theorem beside_of_not_in {p : Nat} (ha : a % 32 = 0) (hp : p % 4096 = 0) (hout : ¬(p ≤ a ∧ a + 32 ≤ p + 512)) :
    a + 32 ≤ p ∨ p + 512 ≤ a := by
  omega

/-- Before the parity or behind it, when the slot is not in its stripe. -/
theorem storeParity_comm (halign : c.l.metaStartVirt % 4096 = 0) (ha : a % 32 = 0) (hbs : bs.length = 32)
    (hper : 0 < c.g.perListBlocks .data) (hcpu : blocknr / c.g.perListBlocks .data < c.g.cpus)
    (hout : ¬c.SlotInParity blocknr a) :
    c.storeParity block blocknr (m.write a bs) = (c.storeParity block blocknr m).map fun m => m.write a bs := by
  rcases @storeParity_cases block c blocknr hper hcpu with ⟨p, hp, hstore⟩ | ⟨-, hstore⟩
  · have hside := beside_of_not_in ha (parity_aligned c halign hp) fun hin => hout ⟨p, hp, hin⟩
    rw [hstore, hstore, Option.map_some, ByteMem.write_comm (by rw [parityStripe_length]; omega)]
  · rw [hstore, hstore, Option.map_some]

/-- The parity is seen in a slot of its stripe. -/
theorem storeParity_shows {p : Nat} {m' : ByteMem} (hp : c.novaGetParityAddr blocknr = some p) (hlo : p ≤ a)
    (hhi : a + 32 ≤ p + 512) (hstore : c.storeParity block blocknr m = some m') :
    m'.read a 32 = ((parityStripe block).drop (a - p)).take 32 := by
  unfold storeParity store at hstore
  rw [hp] at hstore
  split at hstore
  · obtain rfl := Option.some.inj hstore
    obtain ⟨o, rfl⟩ := Nat.exists_eq_add_of_le hlo
    rw [Nat.add_sub_cancel_left, ByteMem.read_write_part (by rw [parityStripe_length]; omega)]
  · rename_i hoff
    simp [novaGetParityAddr, hoff] at hp

/-- The same bytes in two slots, one of them outside the stripe, are told apart. -/
theorem stores_differ (halign : c.l.metaStartVirt % 4096 = 0) (ha : a % 32 = 0) (ha' : a' % 32 = 0) (hne : a ≠ a')
    (hbs : bs.length = 32) (hper : 0 < c.g.perListBlocks .data)
    (hcpu : blocknr / c.g.perListBlocks .data < c.g.cpus) (hout : ¬c.SlotInParity blocknr a) :
    ∃ m : ByteMem, c.storeParity block blocknr (m.write a bs) ≠ c.storeParity block blocknr (m.write a' bs) := by
  obtain ⟨m, hm⟩ : ∃ m : ByteMem, m = fun _ => bs.getD 0 0 + 1 := ⟨_, rfl⟩
  refine ⟨m, fun heq => ?_⟩
  have hread : (m.write a bs).read a 32 = (m.write a' bs).read a 32 := by
    rcases @storeParity_cases block c blocknr hper hcpu with ⟨p, hp, hstore⟩ | ⟨-, hstore⟩
    · have hside := beside_of_not_in ha (parity_aligned c halign hp) fun hin => hout ⟨p, hp, hin⟩
      have hkeep : ∀ m : ByteMem, (m.write p (parityStripe block)).read a 32 = m.read a 32 := fun m =>
        ByteMem.read_write_of_disjoint (by rw [parityStripe_length]; omega)
      rw [hstore, hstore] at heq
      rw [← hkeep, Option.some.inj heq, hkeep]
    · rw [hstore, hstore] at heq
      exact congrArg (fun m => ByteMem.read m a 32) (Option.some.inj heq)
  have hwritten : (m.write a bs).read a 32 = bs := by
    have h := @ByteMem.read_write m a bs
    rwa [hbs] at h
  have hold : (m.write a' bs).read a 32 = m.read a 32 := ByteMem.read_write_of_disjoint (by omega)
  have hfirst : bs.getD 0 0 = bs.getD 0 0 + 1 := by
    calc bs.getD 0 0 = (m.read a 32).getD 0 0 := by rw [← hold, ← hread, hwritten]
      _ = m a := by simp [ByteMem.read, List.range_succ_eq_map]
      _ = bs.getD 0 0 + 1 := by rw [hm]
  exact absurd hfirst (by simp)

end Store

/-! ### When they agree -/

theorem crcBytes_inj {n : Nat} {f g : Nat → UInt32} : crcBytes n f = crcBytes n g ↔ ∀ strp < n, f strp = g strp := by
  unfold crcBytes
  refine ⟨fun h strp hstrp => ?_, fun h => ?_⟩
  · rw [flatMap_leBytes (by decide), flatMap_leBytes (by decide)] at h
    have hbyte : ∀ j < 4, byteAt (f strp).toNat j = byteAt (g strp).toNat j := by
      intro j hj
      have hpos : 4 * strp + j < 4 * n := by omega
      have hat := congrArg (fun l => l.getD (4 * strp + j) 0) h
      simpa [List.getD_eq_getElem?_getD, List.getElem?_map, List.getElem?_range hpos, Nat.mul_add_div,
        Nat.div_eq_of_lt hj, Nat.mul_add_mod, Nat.mod_eq_of_lt hj] using hat
    have hbytes : leBytes 4 (f strp).toNat = leBytes 4 (g strp).toNat := by
      refine List.ext_getElem (by simp) fun j hj hj' => ?_
      rw [leBytes_length] at hj
      rw [← List.getD_eq_getElem _ 0, ← List.getD_eq_getElem _ 0, leBytes_getD hj, leBytes_getD hj, hbyte j hj]
    have hvalue := congrArg leValue hbytes
    have hf := (f strp).toNat_lt
    have hg := (g strp).toNat_lt
    rw [leValue_leBytes, leValue_leBytes, Nat.mod_eq_of_lt (by omega), Nat.mod_eq_of_lt (by omega)] at hvalue
    exact UInt32.toNat_inj.1 hvalue
  · exact List.flatMap_congr fun strp hstrp => by rw [h strp (List.mem_range.1 hstrp)]

/-- What the loop and the plain routines agree on.  Only checksums can go wrong: with SSE 4.2 it
is the slot, without it the stripes. -/
structure UnrollAgrees (block : ByteMem) (blocknr : Nat) : Prop where
  /-- the slot of the first stripe's number is the block's own, or the parity is written over both -/
  sse : c.dataCsum = true → c.xmm42 = true →
    c.novaGetDataCsumAddr (c.strpNr blocknr) = c.novaGetDataCsumAddr blocknr ∨
    ∃ a a', c.novaGetDataCsumAddr blocknr = some a ∧ c.novaGetDataCsumAddr (c.strpNr blocknr) = some a' ∧
      c.SlotInParity blocknr a ∧ c.SlotInParity blocknr a'
  /-- the stripes, and the one behind the block, have the same checksum -/
  stripes : c.dataCsum = true → c.xmm42 = false → ∀ a, c.novaGetDataCsumAddr blocknr = some a →
    ¬c.SlotInParity blocknr a → ∀ strp < 8, stripeCrc block (512 + 512 * strp) = stripeCrc block (0 + 512 * strp)
  /-- in the parity stripe: they are the parity there -/
  parity : c.dataCsum = true → c.xmm42 = false → ∀ a p, c.novaGetDataCsumAddr blocknr = some a →
    c.novaGetParityAddr blocknr = some p → p ≤ a → a + 32 ≤ p + 512 →
    stripeCrcs block 512 = ((novaCalculateBlockParity c.xmm2 block).drop (a - p)).take 32

theorem storeCsums_on (hcsum : c.dataCsum = true) (slot : Option Nat) (crcs : List UInt8) :
    c.storeCsums slot crcs = store slot crcs := by
  funext m
  unfold storeCsums
  rw [hcsum, if_pos rfl]

theorem storeCsums_off (hcsum : c.dataCsum = false) (slot : Option Nat) (crcs : List UInt8) :
    c.storeCsums slot crcs = some := by
  funext m
  unfold storeCsums
  rw [hcsum, if_neg (by decide)]

theorem store_bind {A : Option Nat} (bs : List UInt8) (m : ByteMem) (k : ByteMem → Option ByteMem) :
    (store A bs m).bind k = A.bind fun a => k (m.write a bs) := by
  cases A <;> rfl

/-- With SSE 4.2. -/
theorem sse_iff (harea : MetaArea c.l) (halign : c.l.metaStartVirt % 4096 = 0) (hper : 0 < c.g.perListBlocks .data)
    (hcpu : blocknr / c.g.perListBlocks .data < c.g.cpus) (hcsum : c.dataCsum = true) (hsse : c.xmm42 = true)
    (block : ByteMem) :
    (∀ m, c.novaUpdateBlockCsumParity true .b4K block blocknr 0 4096 m = c.updateBlock block blocknr m) ↔
      (c.novaGetDataCsumAddr (c.strpNr blocknr) = c.novaGetDataCsumAddr blocknr ∨
        ∃ a a', c.novaGetDataCsumAddr blocknr = some a ∧ c.novaGetDataCsumAddr (c.strpNr blocknr) = some a' ∧
          c.SlotInParity blocknr a ∧ c.SlotInParity blocknr a') := by
  have hcode : ∀ m, c.novaUpdateBlockCsumParity true .b4K block blocknr 0 4096 m =
      (c.novaGetDataCsumAddr (c.strpNr blocknr)).bind fun a => c.storeParity block blocknr (m.write a (stripeCrcs block 0)) := by
    intro m
    rw [novaUpdateBlockCsumParity_sse c hsse, storeCsums_on c hcsum]
    exact store_bind ..
  have hplain : ∀ m, c.updateBlock block blocknr m =
      (c.novaGetDataCsumAddr blocknr).bind fun a => c.storeParity block blocknr (m.write a (stripeCrcs block 0)) := by
    intro m
    rw [updateBlock_eq, storeCsums_on c hcsum]
    exact store_bind ..
  obtain ⟨a, ha⟩ := slot_some c harea hcsum hper hcpu
  have hlen := @stripeCrcs_length block 0
  simp only [hcode, hplain, ha, Option.bind_some]
  refine ⟨fun h => ?_, ?_⟩
  · cases hslot : c.novaGetDataCsumAddr (c.strpNr blocknr) with
    | none =>
        -- the store through `NULL`
        have hnone := h fun _ => 0
        rw [hslot] at hnone
        rcases @storeParity_cases block c blocknr hper hcpu with ⟨p, -, hstore⟩ | ⟨-, hstore⟩ <;>
          · rw [hstore] at hnone
            cases hnone
    | some a' =>
        simp only [hslot, Option.bind_some] at h
        have haligned := slot_aligned c harea halign ha
        have haligned' := slot_aligned c harea halign hslot
        by_cases heq : a = a'
        · exact Or.inl (by rw [heq])
        · refine Or.inr ⟨a, a', rfl, rfl, ?_, ?_⟩
          · by_contra hout
            obtain ⟨m, hm⟩ := stores_differ halign haligned haligned' heq hlen hper hcpu hout
            exact hm (h m).symm
          · by_contra hout
            obtain ⟨m, hm⟩ := stores_differ halign haligned' haligned (Ne.symm heq) hlen hper hcpu hout
            exact hm (h m)
  · rintro (hsame | ⟨a₁, a', ha₁, hslot, hin, hin'⟩)
    · simp [hsame]
    · obtain rfl := Option.some.inj ha₁
      intro m
      rw [hslot, Option.bind_some, storeParity_covers hin' hlen, storeParity_covers hin hlen]

/-- Without it. -/
theorem plain_iff (harea : MetaArea c.l) (halign : c.l.metaStartVirt % 4096 = 0) (hper : 0 < c.g.perListBlocks .data)
    (hcpu : blocknr / c.g.perListBlocks .data < c.g.cpus) (hcsum : c.dataCsum = true) (hsse : c.xmm42 = false)
    {a : Nat} (ha : c.novaGetDataCsumAddr blocknr = some a) (block : ByteMem) :
    (∀ m, c.novaUpdateBlockCsumParity true .b4K block blocknr 0 4096 m = c.updateBlock block blocknr m) ↔
      (¬c.SlotInParity blocknr a → ∀ strp < 8, stripeCrc block (512 + 512 * strp) = stripeCrc block (0 + 512 * strp)) ∧
      (∀ p, c.novaGetParityAddr blocknr = some p → p ≤ a → a + 32 ≤ p + 512 →
        stripeCrcs block 512 = ((novaCalculateBlockParity c.xmm2 block).drop (a - p)).take 32) := by
  have hcode : ∀ m, c.novaUpdateBlockCsumParity true .b4K block blocknr 0 4096 m =
      (c.storeParity block blocknr m).map fun m => m.write a (stripeCrcs block 512) := by
    intro m
    rw [novaUpdateBlockCsumParity_plain c hsse, storeCsums_on c hcsum, ha]
    exact Option.map_eq_bind.symm
  have hplain : ∀ m, c.updateBlock block blocknr m = c.storeParity block blocknr (m.write a (stripeCrcs block 0)) := by
    intro m
    rw [updateBlock_eq, storeCsums_on c hcsum, ha]
    rfl
  have hlen := @stripeCrcs_length block 0
  have hlen' := @stripeCrcs_length block 512
  simp only [hcode, hplain, novaCalculateBlockParity_eq]
  by_cases hin : c.SlotInParity blocknr a
  · obtain ⟨p, hp, hlo, hhi⟩ := id hin
    have hafter : ∃ m', c.storeParity block blocknr (fun _ => 0) = some m' := by
      rcases @storeParity_cases block c blocknr hper hcpu with ⟨p, -, hstore⟩ | ⟨-, hstore⟩ <;>
        exact ⟨_, hstore _⟩
    simp only [storeParity_covers hin hlen]
    refine ⟨fun h => ⟨fun hout => absurd hin hout, fun p' hp' hlo' hhi' => ?_⟩, fun h m => ?_⟩
    · obtain ⟨m', hm'⟩ := hafter
      have hsame := h fun _ => 0
      rw [hm'] at hsame
      have hread : (m'.write a (stripeCrcs block 512)).read a 32 = m'.read a 32 :=
        congrArg (fun m => ByteMem.read m a 32) (Option.some.inj hsame)
      have hwritten := @ByteMem.read_write m' a (stripeCrcs block 512)
      rw [hlen'] at hwritten
      rw [← storeParity_shows hp' hlo' hhi' hm', ← hread, hwritten]
    · cases hm' : c.storeParity block blocknr m with
      | none => rfl
      | some m' =>
          have hshows := storeParity_shows hp hlo hhi hm'
          rw [Option.map_some, ByteMem.write_read_self]
          rw [hlen', hshows, h.2 p hp hlo hhi]
  · have haligned := slot_aligned c harea halign ha
    simp only [storeParity_comm halign haligned hlen hper hcpu hin]
    have hcrcs : stripeCrcs block 512 = stripeCrcs block 0 ↔
        ∀ strp < 8, stripeCrc block (512 + 512 * strp) = stripeCrc block (0 + 512 * strp) := crcBytes_inj
    refine ⟨fun h => ⟨fun _ => hcrcs.1 ?_, fun p hp hlo hhi => absurd ⟨p, hp, hlo, hhi⟩ hin⟩, fun h m => ?_⟩
    · have hafter : ∃ m', c.storeParity block blocknr (fun _ => 0) = some m' := by
        rcases @storeParity_cases block c blocknr hper hcpu with ⟨p, -, hstore⟩ | ⟨-, hstore⟩ <;>
          exact ⟨_, hstore _⟩
      obtain ⟨m', hm'⟩ := hafter
      have hsame := h fun _ => 0
      rw [hm'] at hsame
      have hread := congrArg (fun m => ByteMem.read m a 32) (Option.some.inj hsame)
      have hwritten := @ByteMem.read_write m' a (stripeCrcs block 512)
      have hwritten' := @ByteMem.read_write m' a (stripeCrcs block 0)
      rw [hlen'] at hwritten
      rw [hlen] at hwritten'
      rw [← hwritten, hread, hwritten']
    · rw [hcrcs.2 (h.1 hin)]

/-- **The unrolled loop is as good as the plain routines exactly when their stores meet.** -/
theorem novaUpdateBlockCsumParity_iff {metaSeparate : Bool} {devs : List PmemDevice} (hdevs : DevicesOk devs)
    (haccept : novaConfigNvmm metaSeparate devs = .ok c.l) (hper : 0 < c.g.perListBlocks .data)
    (hcpu : blocknr / c.g.perListBlocks .data < c.g.cpus) (block : ByteMem) :
    (∀ m, c.novaUpdateBlockCsumParity true .b4K block blocknr 0 4096 m = c.updateBlock block blocknr m) ↔
      c.UnrollAgrees block blocknr := by
  have harea := metaArea_of_config hdevs haccept
  have halign := metaStartVirt_aligned hdevs haccept
  cases hcsum : c.dataCsum with
  | false =>
      have hsame : ∀ m, c.novaUpdateBlockCsumParity true .b4K block blocknr 0 4096 m = c.updateBlock block blocknr m := by
        intro m
        rw [updateBlock_eq, storeCsums_off c hcsum]
        cases hsse : c.xmm42 with
        | true => rw [novaUpdateBlockCsumParity_sse c hsse, storeCsums_off c hcsum]
        | false =>
            rw [novaUpdateBlockCsumParity_plain c hsse, storeCsums_off c hcsum, Option.bind_fun_some]
            rfl
      refine ⟨fun _ => ⟨?_, ?_, ?_⟩, fun _ => hsame⟩
      · intro h
        rw [hcsum] at h
        cases h
      · intro h
        rw [hcsum] at h
        cases h
      · intro h
        rw [hcsum] at h
        cases h
  | true =>
      obtain ⟨a, ha⟩ := slot_some c harea hcsum hper hcpu
      cases hsse : c.xmm42 with
      | true =>
          rw [sse_iff c harea halign hper hcpu hcsum hsse]
          refine ⟨fun h => ⟨fun _ _ => h, ?_, ?_⟩, fun h => h.sse hcsum hsse⟩
          · intro _ h
            rw [hsse] at h
            cases h
          · intro _ h
            rw [hsse] at h
            cases h
      | false =>
          rw [plain_iff c harea halign hper hcpu hcsum hsse ha]
          refine ⟨fun h => ⟨?_, ?_, ?_⟩, fun h => ⟨h.stripes hcsum hsse a ha, fun p => h.parity hcsum hsse a p ha⟩⟩
          · intro _ hon
            rw [hsse] at hon
            cases hon
          · intro _ _ a' ha'
            obtain rfl := Option.some.inj (ha.symm.trans ha')
            exact h.1
          · intro _ _ a' p ha'
            obtain rfl := Option.some.inj (ha.symm.trans ha')
            exact h.2 p

end DataProtection

/-- Two devices of one gigabyte, two CPUs, and SSE 4.2. -/
def evenProtection (dataCsum dataParity : Bool) : DataProtection where
  l := evenLayout
  g := twoCpus evenLayout (by decide) (by decide) (by decide)
  r := ⟨headReservedBlocks, tailReservedBlocks⟩
  dataCsum := dataCsum
  dataParity := dataParity
  xmm2 := true
  xmm42 := true
  zeroCsum := fun _ => 0

theorem evenProtection_ok : DevicesOk [⟨0x100000000, 0x40000000⟩, ⟨0x200000000, 0x40000000⟩] :=
  ⟨by decide, by decide, by decide, by decide⟩

/-- The first block is its own first stripe. -/
theorem novaUpdateBlockCsumParity_first : (fun m =>
      (evenProtection true true).novaUpdateBlockCsumParity true .b4K (fun _ => 1) 0 0 4096 m) =
    fun m => (evenProtection true true).updateBlock (fun _ => 1) 0 m := by
  have haccept : novaConfigNvmm true [⟨0x100000000, 0x40000000⟩, ⟨0x200000000, 0x40000000⟩] = .ok evenLayout := rfl
  refine funext (((evenProtection true true).novaUpdateBlockCsumParity_iff evenProtection_ok haccept (by decide)
    (by decide) _).2 ⟨fun _ _ => Or.inl rfl, fun _ hplain => ?_, fun _ hplain => ?_⟩)
  · cases hplain
  · cases hplain

/-- The checksums of block 1 go to the slot of block 8. -/
theorem novaUpdateBlockCsumParity_wrong_slot :
    ¬∀ (metaSeparate : Bool) (devs : List PmemDevice) (c : DataProtection) (blocknr : Nat) (block : ByteMem),
      DevicesOk devs → novaConfigNvmm metaSeparate devs = .ok c.l → GeometryOf c.g c.l → 0 < c.g.perListBlocks .data →
      blocknr / c.g.perListBlocks .data < c.g.cpus →
      ∀ m, c.novaUpdateBlockCsumParity true .b4K block blocknr 0 4096 m = c.updateBlock block blocknr m := by
  intro h
  have haccept : novaConfigNvmm true [⟨0x100000000, 0x40000000⟩, ⟨0x200000000, 0x40000000⟩] = .ok evenLayout := rfl
  have hall := h true _ (evenProtection true false) 1 (fun _ => 0) evenProtection_ok haccept ⟨rfl, rfl, rfl⟩ (by decide)
    (by decide)
  rcases ((evenProtection true false).sse_iff (metaArea_of_config evenProtection_ok haccept)
    (metaStartVirt_aligned evenProtection_ok haccept) (by decide) (by decide) rfl rfl _).1 hall with
    hslot | ⟨_, _, -, -, ⟨p, hp, -⟩, -⟩
  · revert hslot
    decide +kernel
  · cases hp

end Parfs
