/-
When an entry is restored from its replica.

A repair by the length of the good copy restores the entry and nothing else.  A repair of the 512
bytes the entry starts in does so too, unless they are the last of the page: then they have the
page tail, and a page gets the tail of its replica, which points to the page itself.  So it
depends on what is damaged: the type, which decides what is repaired, the length of a dentry,
which is not compared with that of its header before the rest is read, or anything else, where it
is up to the checksum.  Bad media is not noticed at all.
-/
import Parfs.EntryRepair
import Parfs.Proofs.Log

namespace Parfs

open Lib ByteMem

/-- Memory without bad media. -/
def Nvmm.clean (m : ByteMem) : Nvmm := ⟨m, fun _ => false⟩

open Nvmm (clean)

variable {m m' : ByteMem} {nv : Nvmm} {p a l n e f : Nat} {t : NovaEntryType} {v w v' w' : EntryVars}

theorem Oops.ok_bind {α β : Type} (x : α) (k : α → Except Oops β) : (Except.ok x >>= k) = k x := rfl

theorem Oops.error_bind {α β : Type} (o : Oops) (k : α → Except Oops β) : (Except.error o >>= k) = .error o := rfl

/-! ### Loads and stores -/

theorem Nvmm.load_ok (h : ∀ i < n, nv.poisoned (a + i) = false) : nv.load a n = .ok (nv.bytes.read a n) := by
  unfold Nvmm.load
  refine if_neg fun hany => ?_
  obtain ⟨i, hi, hbad⟩ := List.any_eq_true.1 hany
  rw [h i (List.mem_range.1 hi)] at hbad
  cases hbad

theorem Nvmm.load_bad {i : Nat} (hi : i < n) (h : nv.poisoned (a + i) = true) : nv.load a n = .error .machineCheck :=
  if_pos (List.any_eq_true.2 ⟨i, List.mem_range.2 hi, h⟩)

theorem Nvmm.memcpyMcsafe_ok (h : ∀ i < n, nv.poisoned (a + i) = false) :
    nv.memcpyMcsafe a n = .ok (0, nv.bytes.read a n) := by
  unfold Nvmm.memcpyMcsafe
  rw [Nvmm.load_ok h]
  rfl

theorem Nvmm.store_clean (m : ByteMem) (a : Nat) (bs : List UInt8) : (clean m).store a bs = clean (m.write a bs) := by
  unfold Nvmm.store clean
  simp

theorem Nvmm.clean_injective (h : clean m = clean m') : m = m' := congrArg Nvmm.bytes h

/-- The other copy of an entry. -/
theorem alterLogEntry_ok (hp : p % 4096 = 0) (hl : l < 4096) (halter : alterPage nv.bytes p = a) (ha : a % 4096 = 0)
    (hlt : a < 2 ^ 64) (hclean : ∀ i < 8, nv.poisoned (p + 4080 + i) = false) :
    nv.alterLogEntry (p + l) = .ok (a + l) := by
  have hoff : blockOff (p + l) + logBlockTail + 16 = p + 4080 := by
    unfold blockOff logBlockTail
    omega
  have hloc : entryLoc (p + l) = l := by
    unfold entryLoc
    omega
  have hword : leValue (nv.bytes.read (p + 4080) 8) = a := halter
  unfold Nvmm.alterLogEntry
  rw [hoff, Nvmm.load_ok hclean, hloc]
  show Except.ok ((leValue (nv.bytes.read (p + 4080) 8) + l) % 2 ^ 64) = _
  rw [hword, Nat.mod_eq_of_lt (by omega)]

/-! ### One copy -/

/-- How much of an entry is read. -/
def readLen (m : ByteMem) (e : Nat) (t : NovaEntryType) : Nat :=
  if t = .dirLog then (if m.word (e + 4) 2 > 304 then 48 else m.word (e + 4) 2) else novaGetLogEntrySize t

/-- A type the code does not know. -/
def UnknownType (m : ByteMem) (e : Nat) : Prop := csumType (m e).toNat = none

/-- A dentry that says it is shorter than its header. -/
def ShortDentry (m : ByteMem) (e : Nat) : Prop := csumType (m e).toNat = some .dirLog ∧ m.word (e + 4) 2 < 48

theorem read_one (m : ByteMem) (e : Nat) : leValue (m.read e 1) = (m e).toNat := by
  simp [ByteMem.read, leValue]

theorem getEntryCopy_known (hfirst : nv.poisoned e = false) (ht : csumType (nv.bytes e).toNat = some t) (v : EntryVars) :
    getEntryCopy nv e v = if t = .dirLog then getDentryCopy nv e v else getFixedCopy nv e t v := by
  have hload : nv.memcpyMcsafe e 1 = .ok (0, nv.bytes.read e 1) := by
    refine Nvmm.memcpyMcsafe_ok fun i hi => ?_
    obtain rfl : i = 0 := by omega
    exact hfirst
  unfold getEntryCopy
  rw [hload]
  simp only [bind, Except.bind, lt_irrefl, if_false]
  rw [read_one, ht]
  cases t <;> rfl

theorem getEntryCopy_unknown (hfirst : nv.poisoned e = false) (ht : UnknownType nv.bytes e) (v : EntryVars) :
    getEntryCopy nv e v = .ok (-Errno.einval.code, { v with csum := 0, size := 0 }) := by
  have hload : nv.memcpyMcsafe e 1 = .ok (0, nv.bytes.read e 1) := by
    refine Nvmm.memcpyMcsafe_ok fun i hi => ?_
    obtain rfl : i = 0 := by omega
    exact hfirst
  unfold getEntryCopy
  rw [hload]
  simp only [bind, Except.bind, lt_irrefl, if_false]
  rw [read_one, show csumType (nv.bytes e).toNat = none from ht]

/-- A read into a buffer. -/
theorem write_read_apply {q : ByteMem} {b i : Nat} (hi : i < n) : q.write b (m.read e n) (b + i) = m (e + i) := by
  rw [write_of_inside (by simpa using hi), List.getD_eq_getElem _ _ (by simpa using hi)]
  simp [ByteMem.read]

theorem write_zero_read_apply {q : ByteMem} {i : Nat} (hi : i < n) : q.write 0 (m.read e n) i = m (e + i) := by
  have h := @write_read_apply m n e q 0 i hi
  rwa [Nat.zero_add] at h

theorem word_of_bytes {q : ByteMem} {b k : Nat} (h : ∀ i < k, q (b + i) = m (e + i)) : q.word b k = m.word e k := by
  unfold word
  refine congrArg leValue (List.map_congr_left fun i hi => ?_)
  exact h i (List.mem_range.1 hi)

/-- The length in the header that was read. -/
theorem deLen_of_header {q : ByteMem} : (q.write 0 (m.read e 48)).word NovaDentry.deLenAt 2 = m.word (e + 4) 2 :=
  word_of_bytes fun i hi => by
    rw [write_zero_read_apply (by unfold NovaDentry.deLenAt; omega), Nat.add_assoc]
    rfl

theorem getFixedCopy_ok (hclean : ∀ i < novaGetLogEntrySize t, nv.poisoned (e + i) = false)
    (hcsum : entryCsumAt t + 4 ≤ novaGetLogEntrySize t) (v : EntryVars) :
    ∃ v', getFixedCopy nv e t v = .ok (0, v') ∧ (∀ i < novaGetLogEntrySize t, v'.copy i = nv.bytes (e + i)) ∧
      v'.size = novaGetLogEntrySize t ∧ v'.csum = nv.bytes.word (e + entryCsumAt t) 4 := by
  have hcopy : ∀ i < novaGetLogEntrySize t, v.copy.write 0 (nv.bytes.read e (novaGetLogEntrySize t)) i = nv.bytes (e + i) :=
    fun i hi => write_zero_read_apply hi
  refine ⟨⟨(v.copy.write 0 (nv.bytes.read e (novaGetLogEntrySize t))).word (entryCsumAt t) 4, novaGetLogEntrySize t,
    v.copy.write 0 (nv.bytes.read e (novaGetLogEntrySize t))⟩, ?_, hcopy, rfl, ?_⟩
  · unfold getFixedCopy
    dsimp only
    rw [Nvmm.memcpyMcsafe_ok hclean]
    rfl
  · refine word_of_bytes fun i hi => ?_
    rw [hcopy _ (by omega), Nat.add_assoc]

theorem getDentryCopy_long (hclean : ∀ i < 48, nv.poisoned (e + i) = false) (hlong : 304 < nv.bytes.word (e + 4) 2)
    (v : EntryVars) : ∃ v', getDentryCopy nv e v = .ok (0, v') ∧ (∀ i < 48, v'.copy i = nv.bytes (e + i)) := by
  refine ⟨{ v with copy := v.copy.write 0 (nv.bytes.read e 48) }, ?_, fun i hi => write_zero_read_apply hi⟩
  unfold getDentryCopy
  dsimp only
  rw [Nvmm.memcpyMcsafe_ok hclean, Oops.ok_bind]
  dsimp only
  rw [if_neg (by decide), deLen_of_header]
  exact if_pos hlong

theorem getDentryCopy_short (hclean : ∀ i < 48, nv.poisoned (e + i) = false) (hshort : nv.bytes.word (e + 4) 2 < 48)
    (v : EntryVars) : getDentryCopy nv e v = .error .wildCopy := by
  unfold getDentryCopy
  dsimp only
  rw [Nvmm.memcpyMcsafe_ok hclean, Oops.ok_bind]
  dsimp only
  rw [if_neg (by decide), deLen_of_header, if_neg (by unfold novaMaxEntryLen novaDirLogRecLen; omega), if_pos hshort]

theorem getDentryCopy_ok (hclean : ∀ i < nv.bytes.word (e + 4) 2, nv.poisoned (e + i) = false)
    (hlo : 48 ≤ nv.bytes.word (e + 4) 2) (hhi : nv.bytes.word (e + 4) 2 ≤ 304) (v : EntryVars) :
    ∃ v', getDentryCopy nv e v = .ok (0, v') ∧ (∀ i < nv.bytes.word (e + 4) 2, v'.copy i = nv.bytes (e + i)) ∧
      v'.size = nv.bytes.word (e + 4) 2 ∧ v'.csum = nv.bytes.word (e + NovaDentry.csumAt) 4 := by
  have hlen : (v.copy.write 0 (nv.bytes.read e 48)).word NovaDentry.deLenAt 2 = nv.bytes.word (e + 4) 2 := deLen_of_header
  obtain ⟨len, hlendef⟩ : ∃ len, nv.bytes.word (e + 4) 2 = len := ⟨_, rfl⟩
  rw [hlendef] at hlen hclean hlo hhi ⊢
  obtain ⟨q, hq⟩ : ∃ q, q = (v.copy.write 0 (nv.bytes.read e 48)).write 48 (nv.bytes.read (e + 48) (len - 48)) := ⟨_, rfl⟩
  have hcopy : ∀ i < len, q i = nv.bytes (e + i) := by
    intro i hi
    rw [hq]
    by_cases hrest : 48 ≤ i
    · obtain ⟨o, rfl⟩ := Nat.exists_eq_add_of_le hrest
      rw [write_read_apply (by omega), Nat.add_assoc]
    · rw [write_of_outside (by omega), write_zero_read_apply (by omega)]
  refine ⟨⟨q.word NovaDentry.csumAt 4, len, q⟩, ?_, hcopy, rfl, ?_⟩
  · unfold getDentryCopy
    dsimp only
    have hrest : nv.memcpyMcsafe (e + 48) (len - 48) = .ok (0, nv.bytes.read (e + 48) (len - 48)) :=
      Nvmm.memcpyMcsafe_ok fun i hi => by
        rw [Nat.add_assoc]
        exact hclean (48 + i) (by omega)
    rw [Nvmm.memcpyMcsafe_ok fun i hi => hclean i (by omega), Oops.ok_bind]
    dsimp only
    rw [if_neg (by decide), hlen, if_neg (by unfold novaMaxEntryLen novaDirLogRecLen; omega), if_neg (by omega), hrest,
      Oops.ok_bind, hq]
    exact if_neg (Int.lt_irrefl 0)
  · refine word_of_bytes fun i hi => ?_
    rw [Nat.add_assoc]
    exact hcopy _ (by unfold NovaDentry.csumAt; omega)

/-- What a copy of an entry of a known type is, when its length is not too short. -/
theorem getEntryCopy_ok (ht : csumType (nv.bytes e).toNat = some t) (hshort : ¬ShortDentry nv.bytes e)
    (hclean : ∀ i < readLen nv.bytes e t, nv.poisoned (e + i) = false) (v : EntryVars) :
    ∃ v', getEntryCopy nv e v = .ok (0, v') ∧ (∀ i < readLen nv.bytes e t, v'.copy i = nv.bytes (e + i)) ∧
      ((v'.size = readLen nv.bytes e t ∧ v'.csum = nv.bytes.word (e + entryCsumAt t) 4) ∨
        (t = .dirLog ∧ 304 < nv.bytes.word (e + 4) 2)) := by
  by_cases hdir : t = .dirLog
  · subst hdir
    have hlo : 48 ≤ nv.bytes.word (e + 4) 2 := by
      by_contra hlt
      exact hshort ⟨ht, by omega⟩
    unfold readLen at hclean ⊢
    rw [if_pos rfl] at hclean ⊢
    by_cases hlong : nv.bytes.word (e + 4) 2 > 304
    · rw [if_pos hlong] at hclean ⊢
      obtain ⟨v', hv', hcopy⟩ := getDentryCopy_long hclean hlong v
      rw [getEntryCopy_known (show nv.poisoned e = false from hclean 0 (by decide)) ht, if_pos rfl]
      exact ⟨v', hv', hcopy, Or.inr ⟨rfl, hlong⟩⟩
    · rw [if_neg hlong] at hclean ⊢
      obtain ⟨v', hv', hcopy, hsize, hcsum⟩ := getDentryCopy_ok hclean hlo (by omega) v
      rw [getEntryCopy_known (show nv.poisoned e = false from hclean 0 (by omega)) ht, if_pos rfl]
      exact ⟨v', hv', hcopy, Or.inl ⟨hsize, hcsum⟩⟩
  · have hsize : entryCsumAt t + 4 ≤ novaGetLogEntrySize t ∧ 0 < novaGetLogEntrySize t := by
      cases t with
      | nextPage =>
          -- not a type `csumType` gives
          exfalso
          revert ht
          unfold csumType
          split <;> simp
      | dirLog => exact absurd rfl hdir
      | fileWrite => decide
      | setAttr => decide
      | linkChange => decide
      | mmapWrite => decide
      | snapshotInfo => decide
    unfold readLen at hclean ⊢
    rw [if_neg hdir] at hclean ⊢
    obtain ⟨v', hv', hcopy, hlen, hcsum⟩ := getFixedCopy_ok hclean hsize.1 v
    rw [getEntryCopy_known (show nv.poisoned e = false from hclean 0 hsize.2) ht, if_neg hdir]
    exact ⟨v', hv', hcopy, Or.inl ⟨hlen, hcsum⟩⟩

theorem getEntryCopy_short (hclean : ∀ i < 48, nv.poisoned (e + i) = false) (hshort : ShortDentry nv.bytes e) (v : EntryVars) :
    getEntryCopy nv e v = .error .wildCopy := by
  rw [getEntryCopy_known (show nv.poisoned e = false from hclean 0 (by decide)) hshort.1, if_pos rfl, getDentryCopy_short hclean hshort.2]

/-! ### An intact entry -/

/-- An entry of `n` bytes with its checksum. -/
structure IntactEntry (m : ByteMem) (e n : Nat) (t : NovaEntryType) : Prop where
  type : csumType (m e).toNat = some t
  fixed : t ≠ .dirLog → n = novaGetLogEntrySize t
  dentry : t = .dirLog → n = m.word (e + 4) 2 ∧ 48 ≤ n ∧ n ≤ 304
  csum : m.word (e + entryCsumAt t) 4 = (novaCalcEntryCsum fun x => m (e + x)).toNat

theorem fixedSize_fits {k : Nat} (ht : csumType k = some t) (hdir : t ≠ .dirLog) :
    entryCsumAt t + 4 ≤ novaGetLogEntrySize t ∧ 40 ≤ novaGetLogEntrySize t ∧ novaGetLogEntrySize t ≤ 64 := by
  cases t with
  | nextPage =>
      -- not a type `csumType` gives
      exfalso
      revert ht
      unfold csumType
      split <;> simp
  | dirLog => exact absurd rfl hdir
  | fileWrite => decide
  | setAttr => decide
  | linkChange => decide
  | mmapWrite => decide
  | snapshotInfo => decide

namespace IntactEntry

variable (h : IntactEntry m e n t)

include h

theorem fits : entryCsumAt t + 4 ≤ n ∧ 6 ≤ n ∧ n ≤ 304 := by
  by_cases hdir : t = .dirLog
  · have hn := h.dentry hdir
    subst hdir
    have hcsum : entryCsumAt .dirLog = 12 := rfl
    omega
  · have hn := h.fixed hdir
    have hsize := fixedSize_fits h.type hdir
    omega

theorem readLen_eq : readLen m e t = n := by
  unfold readLen
  by_cases hdir : t = .dirLog
  · have hn := h.dentry hdir
    rw [if_pos hdir, if_neg (by omega), hn.1]
  · rw [if_neg hdir, h.fixed hdir]

theorem not_short : ¬ShortDentry m e := by
  rintro ⟨ht, hlt⟩
  have hdir : t = .dirLog := Option.some.inj (h.type.symm.trans ht)
  have hn := h.dentry hdir
  omega

/-- The checksum is that of the entry's bytes. -/
theorem calc_congr {q : ByteMem} (hsame : ∀ i < n, q i = m (e + i)) :
    novaCalcEntryCsum q = novaCalcEntryCsum fun x => m (e + x) := by
  obtain ⟨hcsum, hlo, hhi⟩ := h.fits
  have hword : q.word NovaDentry.deLenAt 2 = ByteMem.word (fun x => m (e + x)) NovaDentry.deLenAt 2 :=
    word_of_bytes fun i hi => hsame _ (by unfold NovaDentry.deLenAt; omega)
  have hlen : (if t = .dirLog then ByteMem.word (fun x => m (e + x)) NovaDentry.deLenAt 2 else novaGetLogEntrySize t) = n := by
    by_cases hdir : t = .dirLog
    · rw [if_pos hdir, (h.dentry hdir).1]
      exact word_of_bytes fun i hi => by rw [Nat.add_assoc]; rfl
    · rw [if_neg hdir, h.fixed hdir]
  have hread : ∀ b k, b + k ≤ n → q.read b k = ByteMem.read (fun x => m (e + x)) b k := by
    intro b k hb
    exact read_congr fun x hlo' hhi' => hsame x (by omega)
  have htype : csumType (m (e + 0)).toNat = some t := h.type
  have hqtype : csumType (q 0).toNat = some t := by
    rw [hsame 0 (by omega)]
    exact h.type
  unfold novaCalcEntryCsum
  rw [hqtype, htype]
  dsimp only
  rw [hword, hlen, hread _ _ (by omega), subU64_of_le hcsum (by omega), hread _ _ (by omega)]

/-- The same bytes at another place. -/
theorem congr (hsame : ∀ i < n, m' (f + i) = m (e + i)) : IntactEntry m' f n t := by
  obtain ⟨hcsum, hlo, hhi⟩ := h.fits
  have hfirst : m' f = m e := hsame 0 (by omega)
  have hlen : m'.word (f + 4) 2 = m.word (e + 4) 2 := word_of_bytes fun i hi => by
    rw [Nat.add_assoc, Nat.add_assoc]
    exact hsame _ (by omega)
  refine ⟨by rw [hfirst]; exact h.type, h.fixed, fun hdir => by rw [hlen]; exact h.dentry hdir, ?_⟩
  rw [h.calc_congr hsame, ← h.csum]
  refine word_of_bytes fun i hi => ?_
  rw [Nat.add_assoc, Nat.add_assoc]
  exact hsame _ (by omega)

/-- Its copy, and the check of it. -/
theorem copy (nv : Nvmm) (hbytes : nv.bytes = m) (hclean : ∀ i < n, nv.poisoned (e + i) = false) (v : EntryVars) :
    ∃ v', getEntryCopy nv e v = .ok (0, v') ∧ v'.size = n ∧ v'.copy.read 0 n = m.read e n ∧
      v'.csum = (novaCalcEntryCsum v'.copy).toNat := by
  subst hbytes
  obtain ⟨hcsum, hlo, hhi⟩ := h.fits
  obtain ⟨v', hv', hcopy, hsize⟩ := getEntryCopy_ok h.type h.not_short (by rw [h.readLen_eq]; exact hclean) v
  rw [h.readLen_eq] at hcopy hsize
  rcases hsize with ⟨hsize, hsum⟩ | ⟨hdir, hlong⟩
  · refine ⟨v', hv', hsize, ?_, ?_⟩
    · unfold ByteMem.read
      refine List.map_congr_left fun i hi => ?_
      rw [Nat.zero_add, hcopy i (List.mem_range.1 hi)]
    · rw [hsum, h.csum, h.calc_congr hcopy]
  · have hn := h.dentry hdir
    omega

end IntactEntry

/-! ### Page and replica -/

/-- A log page and its replica in lock step, with an entry of `n` bytes at place `l`. -/
structure Twins (m : ByteMem) (p a l n : Nat) (t : NovaEntryType) : Prop where
  page : IsPage p
  replica : IsPage a
  apart : p ≠ a
  toReplica : alterPage m p = a
  toPage : alterPage m a = p
  same : ∀ o < logBlockTail, m (p + o) = m (a + o)
  entry : IntactEntry m (p + l) n t
  inside : l + n ≤ logBlockTail

/-- The replica's replica is the page. -/
theorem Twins.symm (h : Twins m p a l n t) : Twins m a p l n t where
  page := h.replica
  replica := h.page
  apart := h.apart.symm
  toReplica := h.toPage
  toPage := h.toReplica
  same := fun o ho => (h.same o ho).symm
  entry := h.entry.congr fun i hi => by
    have hfit := h.inside
    rw [Nat.add_assoc, Nat.add_assoc, ← h.same _ (by omega)]
  inside := h.inside

/-- Only bytes of the entry at `e` differ. -/
def OnlyAt (m m' : ByteMem) (e n : Nat) : Prop := ∀ x, x < e ∨ e + n ≤ x → m' x = m x

theorem OnlyAt.write {d : List UInt8} (hd : d.length = n) : OnlyAt m (m.write e d) e n := by
  intro x hx
  exact write_of_outside (by omega)

/-- Written again, the entry is back. -/
theorem OnlyAt.restore (h : OnlyAt m m' e n) : m'.write e (m.read e n) = m := by
  funext x
  by_cases hx : e ≤ x ∧ x < e + n
  · obtain ⟨i, rfl⟩ := Nat.exists_eq_add_of_le hx.1
    exact write_read_apply (by omega)
  · rw [write_of_outside (by rw [read_length]; omega)]
    exact h x (by omega)

/-- The memory with the 512 bytes the entry starts in taken from the other copy. -/
def radiusCopied (m : ByteMem) (e f : Nat) : ByteMem := m.write (e / 512 * 512) (m.read (f / 512 * 512) 512)

theorem radius_of_page (hp : p % 4096 = 0) (l : Nat) : (p + l) / 512 * 512 = p + l / 512 * 512 := by omega

namespace Twins

variable (h : Twins m p a l n t)

include h

theorem far : p + 4096 ≤ a ∨ a + 4096 ≤ p := by
  have hp := h.page.1
  have ha := h.replica.1
  have hne := h.apart
  omega

theorem place : 0 < n ∧ l + n ≤ 4064 := by
  have hfits := h.entry.fits
  have hin := h.inside
  unfold logBlockTail at hin
  omega

/-- The other copy is not touched. -/
theorem other (honly : OnlyAt m m' (p + l) n) : ∀ o < 4096, m' (a + o) = m (a + o) := by
  intro o ho
  have hfar := h.far
  have hplace := h.place
  exact honly _ (by omega)

theorem otherEntry (honly : OnlyAt m m' (p + l) n) : IntactEntry m' (a + l) n t := by
  have hplace := h.place
  refine h.entry.congr fun i hi => ?_
  rw [Nat.add_assoc, h.other honly _ (by omega), Nat.add_assoc]
  exact (h.same _ (by unfold logBlockTail; omega)).symm

theorem otherBytes (honly : OnlyAt m m' (p + l) n) : m'.read (a + l) n = m.read (p + l) n := by
  have hplace := h.place
  refine List.map_congr_left fun i hi => ?_
  rw [List.mem_range] at hi
  rw [Nat.add_assoc, h.other honly _ (by omega), Nat.add_assoc]
  exact (h.same _ (by unfold logBlockTail; omega)).symm

/-- Neither are the page tails. -/
theorem tails (honly : OnlyAt m m' (p + l) n) : alterPage m' p = a ∧ alterPage m' a = p := by
  have hplace := h.place
  have hfar := h.far
  refine ⟨?_, ?_⟩
  · refine (word_congr fun x hlo hhi => honly x ?_).trans h.toReplica
    unfold logBlockTail at hlo
    omega
  · refine (word_congr fun x hlo hhi => honly x ?_).trans h.toPage
    unfold logBlockTail at hlo hhi
    omega

theorem alterLogEntry (honly : OnlyAt m m' (p + l) n) :
    (clean m').alterLogEntry (p + l) = .ok (a + l) ∧ (clean m').alterLogEntry (a + l) = .ok (p + l) := by
  have hplace := h.place
  obtain ⟨htail, htail'⟩ := h.tails honly
  exact ⟨alterLogEntry_ok h.page.1 (by omega) htail h.replica.1 h.replica.2.2 fun _ _ => rfl,
    alterLogEntry_ok h.replica.1 (by omega) htail' h.page.1 h.page.2.2 fun _ _ => rfl⟩

/-- The 512 bytes of the other copy. -/
theorem radius_byte (honly : OnlyAt m m' (p + l) n) {r i : Nat} (hr : r = l / 512 * 512) (hi : i < 512) :
    radiusCopied m' (p + l) (a + l) (p + (r + i)) = m (a + (r + i)) := by
  have hplace := h.place
  have hpr : (p + l) / 512 * 512 = p + r := by rw [radius_of_page h.page.1, hr]
  have har : (a + l) / 512 * 512 = a + r := by rw [radius_of_page h.replica.1, hr]
  have hcopied : radiusCopied m' (p + l) (a + l) (p + r + i) = m' (a + r + i) := by
    unfold radiusCopied
    rw [hpr, har]
    exact write_read_apply hi
  rw [← Nat.add_assoc, hcopied, Nat.add_assoc]
  exact h.other honly _ (by omega)

/-- In front of the last 512 bytes the other copy has what the page should have. -/
theorem radius_only (honly : OnlyAt m m' (p + l) n) (hl : l < 3584) :
    OnlyAt m (radiusCopied m' (p + l) (a + l)) (p + l) n ∧ radiusCopied m' (p + l) (a + l) (p + l) = m (p + l) := by
  have hp := h.page.1
  have hplace := h.place
  obtain ⟨r, hr⟩ : ∃ r, r = l / 512 * 512 := ⟨_, rfl⟩
  have hpr : (p + l) / 512 * 512 = p + r := by rw [radius_of_page h.page.1, hr]
  have hradius : ∀ o, r ≤ o → o < r + 512 → radiusCopied m' (p + l) (a + l) (p + o) = m (p + o) := by
    intro o hlo hhi
    obtain ⟨i, rfl⟩ := Nat.exists_eq_add_of_le hlo
    rw [h.radius_byte honly hr (by omega)]
    exact (h.same _ (by unfold logBlockTail; omega)).symm
  refine ⟨fun x hx => ?_, hradius l (by omega) (by omega)⟩
  by_cases hin : p + r ≤ x ∧ x < p + r + 512
  · obtain ⟨o, rfl⟩ := Nat.exists_eq_add_of_le (show p ≤ x by omega)
    exact hradius o (by omega) (by omega)
  · unfold radiusCopied
    rw [hpr, write_of_outside (by rw [read_length]; omega)]
    exact honly x hx

/-- The last 512 bytes have the page tail: the page becomes its own replica. -/
theorem radius_tail (honly : OnlyAt m m' (p + l) n) (hl : ¬l < 3584) :
    alterPage (radiusCopied m' (p + l) (a + l)) p = p ∧
    ∀ i < n, radiusCopied m' (p + l) (a + l) (p + l + i) = m (p + l + i) := by
  have hplace := h.place
  obtain ⟨r, hr⟩ : ∃ r, r = l / 512 * 512 := ⟨_, rfl⟩
  have hradius : ∀ o, r ≤ o → o < 4096 → radiusCopied m' (p + l) (a + l) (p + o) = m (a + o) := by
    intro o hlo hhi
    obtain ⟨i, rfl⟩ := Nat.exists_eq_add_of_le hlo
    exact h.radius_byte honly hr (by omega)
  refine ⟨?_, fun i hi => ?_⟩
  · refine Eq.trans ?_ h.toPage
    refine word_of_bytes fun i hi => ?_
    have htail := hradius (logBlockTail + 16 + i) (by unfold logBlockTail; omega) (by unfold logBlockTail; omega)
    simpa only [Nat.add_assoc] using htail
  · have hbyte := hradius (l + i) (by omega) (by omega)
    rw [← h.same _ (by unfold logBlockTail; omega)] at hbyte
    simpa only [Nat.add_assoc] using hbyte

end Twins

/-! ### The steps -/

theorem getRepairedCopy_ok (hcopy : getEntryCopy nv e v = .ok (0, v')) : getRepairedCopy nv e v = .ok (0, v', nv) := by
  unfold getRepairedCopy
  rw [hcopy, Oops.ok_bind]
  exact if_neg (Int.lt_irrefl 0)

theorem getRepairedCopy_error {o : Oops} (hcopy : getEntryCopy nv e v = .error o) : getRepairedCopy nv e v = .error o := by
  unfold getRepairedCopy
  rw [hcopy, Oops.error_bind]

theorem novaRepairEntryPr_clean (halter : (clean m).alterLogEntry e = .ok f) (hf : f ≠ 0) :
    novaRepairEntryPr (clean m) e = .ok (0, clean (radiusCopied m e f)) := by
  unfold novaRepairEntryPr
  rw [halter, Oops.ok_bind, if_neg hf, Nvmm.memcpyMcsafe_ok fun _ _ => rfl, Oops.ok_bind]
  dsimp only
  rw [Nvmm.store_clean, if_neg (Int.lt_irrefl 0)]
  rfl

/-- With an unknown type, the 512 bytes are copied and the entry is read again. -/
theorem getRepairedCopy_unknown (hunknown : UnknownType m e) (halter : (clean m).alterLogEntry e = .ok f) (hf : f ≠ 0)
    (v : EntryVars) : getRepairedCopy (clean m) e v = (getEntryCopy (clean (radiusCopied m e f)) e { v with csum := 0, size := 0 }) >>=
      fun r => .ok (r.1, r.2, clean (radiusCopied m e f)) := by
  unfold getRepairedCopy
  rw [getEntryCopy_unknown rfl hunknown, Oops.ok_bind]
  dsimp only
  rw [if_pos (by decide), novaRepairEntryPr_clean halter hf, Oops.ok_bind]
  exact if_neg (Int.lt_irrefl 0)

theorem novaVerifyEntryCsum_error {o : Oops} (hcopy : getRepairedCopy nv e v = .error o) :
    novaVerifyEntryCsum true nv e v w = .error o := by
  unfold novaVerifyEntryCsum
  rw [hcopy]
  rfl

theorem novaVerifyEntryCsum_alter {nv' : Nvmm} (hcopy : getRepairedCopy nv e v = .ok (0, v', nv'))
    (halter : nv'.alterLogEntry e = .ok f) (hf : f ≠ 0) :
    novaVerifyEntryCsum true nv e v w = (getRepairedCopy nv' f w) >>= fun r =>
      if r.1 < 0 then .ok (false, [], r.2.2) else .ok (compareCopies r.2.2 e f v' r.2.1) := by
  unfold novaVerifyEntryCsum
  rw [hcopy, Oops.ok_bind]
  dsimp only
  rw [if_neg (by decide), if_neg (Int.lt_irrefl 0), halter, Oops.ok_bind, if_neg hf]

/-- Both copies are read. -/
theorem novaVerifyEntryCsum_compare {nv' nv'' : Nvmm} (hcopy : getRepairedCopy nv e v = .ok (0, v', nv'))
    (halter : nv'.alterLogEntry e = .ok f) (hf : f ≠ 0) (hcopy' : getRepairedCopy nv' f w = .ok (0, w', nv'')) :
    novaVerifyEntryCsum true nv e v w = .ok (compareCopies nv'' e f v' w') := by
  rw [novaVerifyEntryCsum_alter hcopy halter hf, hcopy', Oops.ok_bind]
  exact if_neg (Int.lt_irrefl 0)

/-- Two good copies of the same bytes. -/
theorem compareCopies_same (hv : v.csum = (novaCalcEntryCsum v.copy).toNat) (hw : w.csum = (novaCalcEntryCsum w.copy).toNat)
    (hsame : v.copy.read 0 v.size = w.copy.read 0 v.size) :
    compareCopies nv e f v w = (true, v.copy.read 0 v.size, nv) := by
  unfold compareCopies
  rw [if_neg (fun hboth => hboth.1 hv), if_neg (fun hbad => hbad hv), if_neg]
  rintro (hbad | hdiffer)
  · exact hbad hw
  · exact hdiffer hsame

/-! ### Damage -/

/-- The copy that is made fails the check. -/
def Detected (m : ByteMem) (e : Nat) (v : EntryVars) : Prop :=
  ∀ v', getEntryCopy (clean m) e v = .ok (0, v') → v'.csum ≠ (novaCalcEntryCsum v'.copy).toNat

/-- With a known type: the length of a dentry is not shorter than its header, and in the main copy
the checksum tells what is damaged. -/
def CopyReadable (m m' : ByteMem) (e : Nat) (main : Bool) (v : EntryVars) : Prop :=
  ¬ShortDentry m' e ∧ (main = true → m' = m ∨ Detected m' e v)

/-- `getRepairedCopy` is `getEntryCopy` of this memory. -/
def ReadsFrom (m' m₂ : ByteMem) (e : Nat) (v v₂ : EntryVars) : Prop :=
  getRepairedCopy (clean m') e v = (getEntryCopy (clean m₂) e v₂) >>= fun r => .ok (r.1, r.2, clean m₂)

theorem readsFrom_known (ht : csumType (m e).toNat = some t) (v : EntryVars) : ReadsFrom m m e v v := by
  unfold ReadsFrom
  by_cases hshort : ShortDentry m e
  · have herror := @getEntryCopy_short (clean m) e (fun _ _ => rfl) hshort v
    rw [getRepairedCopy_error herror, herror, Oops.error_bind]
  · obtain ⟨v', hv', -⟩ := @getEntryCopy_ok (clean m) e t ht hshort (fun _ _ => rfl) v
    rw [getRepairedCopy_ok hv', hv', Oops.ok_bind]

theorem readLen_le (ht : csumType (m e).toNat = some t) : readLen m e t ≤ 304 := by
  unfold readLen
  by_cases hdir : t = .dirLog
  · rw [if_pos hdir]
    split <;> omega
  · have hsize := fixedSize_fits ht hdir
    rw [if_neg hdir]
    omega

theorem readLen_ge (ht : csumType (m e).toNat = some t) (hshort : ¬ShortDentry m e) : 40 ≤ readLen m e t := by
  unfold readLen
  by_cases hdir : t = .dirLog
  · subst hdir
    have hlo : ¬m.word (e + 4) 2 < 48 := fun hlt => hshort ⟨ht, hlt⟩
    rw [if_pos rfl]
    split <;> omega
  · have hsize := fixedSize_fits ht hdir
    rw [if_neg hdir]
    exact hsize.2.1

/-- What a bad main copy gives does not bring the memory back. -/
theorem Twins.not_restored (h : Twins m p a l n t) (honly : OnlyAt m m' (p + l) n) (hne : m' ≠ m) {t' : NovaEntryType}
    (ht : csumType (m' (p + l)).toNat = some t')
    (hcopy : ∀ i < readLen m' (p + l) t', v'.copy i = m' (p + l + i))
    (hsize : v'.size = readLen m' (p + l) t' ∨ (t' = .dirLog ∧ 304 < m'.word (p + l + 4) 2)) :
    m'.write (a + l) (v'.copy.read 0 v'.size) ≠ m := by
  intro heq
  have hplace := h.place
  have hfits := h.entry.fits
  have hfar := h.far
  obtain ⟨x, hx⟩ := Function.ne_iff.1 hne
  have hin : p + l ≤ x ∧ x < p + l + n := by
    by_contra hout
    exact hx (honly x (by omega))
  -- the byte is written over only by a copy of a wild length
  have hover : a + l ≤ x ∧ x < a + l + v'.size := by
    by_contra hout
    have hkept := congrFun heq x
    rw [write_of_outside (by rw [read_length]; omega)] at hkept
    exact hx hkept
  have hle := readLen_le ht
  rcases hsize with hsize | ⟨hdir, hlong⟩
  · omega
  · subst hdir
    have hread : readLen m' (p + l) .dirLog = 48 := by
      unfold readLen
      rw [if_pos rfl, if_pos hlong]
    rw [hread] at hcopy
    -- but then the type and the length of the bad copy are those of the good one
    have hsame : ∀ i < 6, m' (p + l + i) = m (p + l + i) := by
      intro i hi
      have hgood := congrFun heq (a + l + i)
      rw [write_read_apply (by omega), Nat.zero_add, hcopy i (by omega)] at hgood
      rw [hgood, Nat.add_assoc, Nat.add_assoc]
      exact (h.same _ (by unfold logBlockTail; omega)).symm
    have hdir : t = .dirLog := by
      have hfirst : m' (p + l) = m (p + l) := hsame 0 (by omega)
      rw [hfirst, h.entry.type] at ht
      exact Option.some.inj ht
    have hlen : m'.word (p + l + 4) 2 = m.word (p + l + 4) 2 := word_of_bytes fun i hi => by
      have hbyte := hsame (4 + i) (by omega)
      simpa only [Nat.add_assoc] using hbyte
    have hn := h.entry.dentry hdir
    omega

/-- The main copy, once its type is known. -/
theorem Twins.main_iff (h : Twins m p a l n t) {m₂ : ByteMem} {v₂ : EntryVars} (hreads : ReadsFrom m' m₂ (p + l) v v₂)
    (honly : OnlyAt m m₂ (p + l) n) {t' : NovaEntryType} (ht : csumType (m₂ (p + l)).toNat = some t') (w : EntryVars) :
    novaVerifyEntryCsum true (clean m') (p + l) v w = .ok (true, m.read (p + l) n, clean m) ↔
      CopyReadable m m₂ (p + l) true v₂ := by
  by_cases hshort : ShortDentry m₂ (p + l)
  · have herror := @getEntryCopy_short (clean m₂) (p + l) (fun _ _ => rfl) hshort v₂
    have hverify : novaVerifyEntryCsum true (clean m') (p + l) v w = .error .wildCopy :=
      novaVerifyEntryCsum_error (by rw [hreads, herror, Oops.error_bind])
    rw [hverify]
    exact ⟨fun heq => (by cases heq), fun hread => absurd hshort hread.1⟩
  · obtain ⟨v', hv', hcopy, hsize⟩ := @getEntryCopy_ok (clean m₂) (p + l) t' ht hshort (fun _ _ => rfl) v₂
    obtain ⟨w', hw', hwsize, hwread, hwcsum⟩ := (h.otherEntry honly).copy (clean m₂) rfl (fun _ _ => rfl) w
    have hne : a + l ≠ 0 := by
      have ha := h.replica.2.1
      omega
    have hverify : novaVerifyEntryCsum true (clean m') (p + l) v w =
        .ok (compareCopies (clean m₂) (p + l) (a + l) v' w') :=
      novaVerifyEntryCsum_compare (by rw [hreads, hv', Oops.ok_bind]) (h.alterLogEntry honly).1 hne (getRepairedCopy_ok hw')
    have hdetected : Detected m₂ (p + l) v₂ ↔ v'.csum ≠ (novaCalcEntryCsum v'.copy).toNat := by
      refine ⟨fun hdet => hdet v' hv', fun hbad v'' hv'' => ?_⟩
      rw [hv'] at hv''
      obtain ⟨-, rfl⟩ := Prod.mk.inj (Except.ok.inj hv'')
      exact hbad
    have hgood : w'.copy.read 0 w'.size = m.read (p + l) n := by rw [hwsize, hwread, h.otherBytes honly]
    have hfresh : ∀ bs, (clean m₂).store (a + l) bs = clean (m₂.write (a + l) bs) := fun bs => Nvmm.store_clean _ _ _
    unfold CopyReadable
    rw [hverify, hdetected]
    by_cases hbad : v'.csum ≠ (novaCalcEntryCsum v'.copy).toNat
    · -- the main copy is written again
      have hcompare : compareCopies (clean m₂) (p + l) (a + l) v' w' = (true, m.read (p + l) n, clean m) := by
        unfold compareCopies
        rw [if_neg (fun hboth => hboth.2 hwcsum), if_pos hbad, hgood, Nvmm.store_clean, honly.restore]
      rw [hcompare]
      exact ⟨fun _ => ⟨hshort, fun _ => Or.inr hbad⟩, fun _ => rfl⟩
    · by_cases hsame : m₂ = m
      · subst hsame
        obtain ⟨v'', hv'', hvsize, hvread, -⟩ := h.entry.copy (clean m₂) rfl (fun _ _ => rfl) v₂
        rw [hv'] at hv''
        obtain ⟨-, rfl⟩ := Prod.mk.inj (Except.ok.inj hv'')
        rw [hwsize] at hgood
        rw [compareCopies_same (not_not.1 hbad) hwcsum (by rw [hvsize, hvread, hgood]), hvsize, hvread]
        exact ⟨fun _ => ⟨hshort, fun _ => Or.inl rfl⟩, fun _ => rfl⟩
      · -- the main copy stays bad, whatever happens to the replica
        refine ⟨fun heq => ?_, fun hread => absurd (hread.2 rfl) (by simp [hsame, hbad])⟩
        have hout := Except.ok.inj heq
        unfold compareCopies at hout
        rw [if_neg (fun hboth => hbad hboth.1), if_neg hbad] at hout
        split at hout
        · have hmem := (Prod.mk.inj (Prod.mk.inj hout).2).2
          rw [Nvmm.store_clean] at hmem
          exact absurd (Nvmm.clean_injective hmem)
            (h.not_restored honly hsame ht hcopy (hsize.imp_left fun hs => hs.1))
        · exact absurd (Nvmm.clean_injective (Prod.mk.inj (Prod.mk.inj hout).2).2) hsame

/-- A replica whose copy is that of the main copy has the same bytes. -/
theorem Twins.replica_eq (h : Twins m p a l n t) {m₂ : ByteMem} (honly : OnlyAt m m₂ (a + l) n) {t' : NovaEntryType}
    (ht : csumType (m₂ (a + l)).toNat = some t') (hshort : ¬ShortDentry m₂ (a + l))
    (hcopy : ∀ i < readLen m₂ (a + l) t', w'.copy i = m₂ (a + l + i)) (hbytes : ∀ i < n, w'.copy i = m (p + l + i)) :
    m₂ = m := by
  have hfits := h.entry.fits
  have hlen := readLen_ge ht hshort
  have hfirst : m₂ (a + l) = m (p + l) := (hcopy 0 (by omega)).symm.trans (hbytes 0 (by omega))
  have htype : t' = t := by
    rw [hfirst, h.entry.type] at ht
    exact (Option.some.inj ht).symm
  subst htype
  have hword : m₂.word (a + l + 4) 2 = m.word (p + l + 4) 2 := word_of_bytes fun i hi => by
    have hbyte := (hcopy (4 + i) (by omega)).symm.trans (hbytes (4 + i) (by omega))
    simpa only [Nat.add_assoc] using hbyte
  have hsame : readLen m₂ (a + l) t' = n := by
    rw [← h.entry.readLen_eq]
    unfold readLen
    rw [hword]
  funext x
  by_cases hx : a + l ≤ x ∧ x < a + l + n
  · obtain ⟨i, rfl⟩ := Nat.exists_eq_add_of_le hx.1
    have hplace := h.place
    rw [← hcopy i (by omega), hbytes i (by omega), Nat.add_assoc, Nat.add_assoc]
    exact h.same _ (by unfold logBlockTail; omega)
  · exact honly x (by omega)

/-- The replica, once its type is known. -/
theorem Twins.alter_iff (h : Twins m p a l n t) {m₂ : ByteMem} {w₂ : EntryVars} (hbefore : OnlyAt m m' (a + l) n)
    (hreads : ReadsFrom m' m₂ (a + l) w w₂) (honly : OnlyAt m m₂ (a + l) n) {t' : NovaEntryType}
    (ht : csumType (m₂ (a + l)).toNat = some t') (v : EntryVars) :
    novaVerifyEntryCsum true (clean m') (p + l) v w = .ok (true, m.read (p + l) n, clean m) ↔
      ¬ShortDentry m₂ (a + l) := by
  obtain ⟨v', hv', hvsize, hvread, hvcsum⟩ := (h.symm.otherEntry hbefore).copy (clean m') rfl (fun _ _ => rfl) v
  have hne : a + l ≠ 0 := by
    have ha := h.replica.2.1
    omega
  have hmain : m'.read (p + l) n = m.read (p + l) n := by
    rw [h.symm.otherBytes hbefore]
    exact h.otherBytes fun _ _ => rfl
  rw [novaVerifyEntryCsum_alter (getRepairedCopy_ok hv') (h.symm.alterLogEntry hbefore).2 hne, hreads]
  by_cases hshort : ShortDentry m₂ (a + l)
  · rw [@getEntryCopy_short (clean m₂) (a + l) (fun _ _ => rfl) hshort w₂, Oops.error_bind, Oops.error_bind]
    exact ⟨fun heq => (by cases heq), fun hread => absurd hshort hread⟩
  · obtain ⟨w', hw', hcopy, hsize⟩ := @getEntryCopy_ok (clean m₂) (a + l) t' ht hshort (fun _ _ => rfl) w₂
    rw [hw', Oops.ok_bind, Oops.ok_bind, if_neg (Int.lt_irrefl 0)]
    refine ⟨fun _ => hshort, fun _ => congrArg Except.ok ?_⟩
    unfold compareCopies
    dsimp only
    rw [if_neg (fun hboth => hboth.1 hvcsum), if_neg (fun hbad => hbad hvcsum), hvsize, hvread, hmain, Nvmm.store_clean]
    split
    · -- the replica is written again
      have hback : m₂.write (a + l) (m.read (p + l) n) = m := by
        rw [← h.otherBytes (show OnlyAt m m (p + l) n from fun _ _ => rfl)]
        exact honly.restore
      rw [hback]
    · -- the copies agree, so nothing is damaged
      rename_i hagree
      have hbytes : ∀ i < n, w'.copy i = m (p + l + i) := by
        intro i hi
        have hread : m.read (p + l) n = w'.copy.read 0 n := by
          by_contra hdiffer
          exact hagree (Or.inr hdiffer)
        have hat := congrArg (fun bs => bs.getD i 0) hread
        simpa [ByteMem.read, List.getD_eq_getElem?_getD, List.getElem?_map, List.getElem?_range hi] using hat.symm
      rw [h.replica_eq honly ht hshort hcopy hbytes]

/-! ### All damage -/

/-- What is wrong with one of the two copies. -/
inductive Damage where
  /-- the media of the 512 bytes it starts in -/
  | poison
  /-- its bytes, which are these -/
  | bytes (d : List UInt8)

/-- The memory with a damaged copy at `e`. -/
def Damage.apply (m : ByteMem) (e : Nat) : Damage → Nvmm
  | .poison => ⟨m, fun x => decide (x / 512 = e / 512)⟩
  | .bytes d => clean (m.write e d)

/-- The damage that is repaired, of the copy at place `l` of page `p` with the other one in page
`a`.  With an unknown type it must not be in the last 512 bytes, and is judged by what is left
after these are copied. -/
def Restorable (m : ByteMem) (p a l : Nat) (main : Bool) (v : EntryVars) : Damage → Prop
  | .poison => False
  | .bytes d =>
    (UnknownType (m.write (p + l) d) (p + l) → l < 3584 ∧
      CopyReadable m (radiusCopied (m.write (p + l) d) (p + l) (a + l)) (p + l) main { v with csum := 0, size := 0 }) ∧
    (¬UnknownType (m.write (p + l) d) (p + l) → CopyReadable m (m.write (p + l) d) (p + l) main v)

theorem known_of_not_unknown (hknown : ¬UnknownType m e) : ∃ t, csumType (m e).toNat = some t := Option.ne_none_iff_exists'.1 hknown

section Damaged

variable (h : Twins m p a l n t) {d : List UInt8} (hd : d.length = n)

include h hd

theorem readsFrom_radius (hunknown : UnknownType (m.write (p + l) d) (p + l)) (v : EntryVars) :
    ReadsFrom (m.write (p + l) d) (radiusCopied (m.write (p + l) d) (p + l) (a + l)) (p + l) v { v with csum := 0, size := 0 } := by
  have ha := h.replica.2.1
  exact getRepairedCopy_unknown hunknown (h.alterLogEntry (OnlyAt.write hd)).1 (by omega) v

theorem bytes_main_iff (v w : EntryVars) :
    novaVerifyEntryCsum true (clean (m.write (p + l) d)) (p + l) v w = .ok (true, m.read (p + l) n, clean m) ↔
      Restorable m p a l true v (.bytes d) := by
  have honly : OnlyAt m (m.write (p + l) d) (p + l) n := OnlyAt.write hd
  unfold Restorable
  by_cases hunknown : UnknownType (m.write (p + l) d) (p + l)
  · have hreads := readsFrom_radius h hd hunknown v
    by_cases hl : l < 3584
    · obtain ⟨honly₂, hfirst⟩ := h.radius_only honly hl
      rw [h.main_iff hreads honly₂ (by rw [hfirst]; exact h.entry.type) w]
      simp [hunknown, hl]
    · -- the page is its own replica now
      obtain ⟨hself, hbytes⟩ := h.radius_tail honly hl
      obtain ⟨m₂, hm₂⟩ : ∃ m₂, m₂ = radiusCopied (m.write (p + l) d) (p + l) (a + l) := ⟨_, rfl⟩
      rw [← hm₂] at hreads hself hbytes
      have hintact : IntactEntry m₂ (p + l) n t := h.entry.congr hbytes
      obtain ⟨v', hv', hvsize, hvread, hvcsum⟩ := hintact.copy (clean m₂) rfl (fun _ _ => rfl) { v with csum := 0, size := 0 }
      obtain ⟨w', hw', hwsize, hwread, hwcsum⟩ := hintact.copy (clean m₂) rfl (fun _ _ => rfl) w
      have hplace := h.place
      have hp := h.page
      have halter : (clean m₂).alterLogEntry (p + l) = .ok (p + l) :=
        alterLogEntry_ok hp.1 (by omega) hself hp.1 hp.2.2 fun _ _ => rfl
      rw [novaVerifyEntryCsum_compare (by rw [hreads, hv', Oops.ok_bind]) halter (by have h0 := hp.2.1; omega) (getRepairedCopy_ok hw'),
        compareCopies_same hvcsum hwcsum (by rw [hvsize, hvread, hwread])]
      refine ⟨fun heq => ?_, fun hrest => absurd (hrest.1 hunknown).1 hl⟩
      have hmem := Nvmm.clean_injective (Prod.mk.inj (Prod.mk.inj (Except.ok.inj heq)).2).2
      rw [hmem, h.toReplica] at hself
      exact absurd hself.symm h.apart
  · obtain ⟨t', ht⟩ := known_of_not_unknown hunknown
    rw [h.main_iff (readsFrom_known ht v) honly ht w]
    simp [hunknown]

end Damaged

theorem bytes_alter_iff (h : Twins m p a l n t) {d : List UInt8} (hd : d.length = n) (v w : EntryVars) :
    novaVerifyEntryCsum true (clean (m.write (a + l) d)) (p + l) v w = .ok (true, m.read (p + l) n, clean m) ↔
      Restorable m a p l false v (.bytes d) := by
  have honly : OnlyAt m (m.write (a + l) d) (a + l) n := OnlyAt.write hd
  unfold Restorable
  by_cases hunknown : UnknownType (m.write (a + l) d) (a + l)
  · have hreads := readsFrom_radius h.symm hd hunknown w
    by_cases hl : l < 3584
    · obtain ⟨honly₂, hfirst⟩ := h.symm.radius_only honly hl
      rw [h.alter_iff honly hreads honly₂ (by rw [hfirst]; exact h.symm.entry.type) v]
      simp [hunknown, hl, CopyReadable]
    · -- the replica's page is its own replica now
      obtain ⟨hself, hbytes⟩ := h.symm.radius_tail honly hl
      obtain ⟨m₂, hm₂⟩ : ∃ m₂, m₂ = radiusCopied (m.write (a + l) d) (a + l) (p + l) := ⟨_, rfl⟩
      rw [← hm₂] at hreads hself hbytes
      obtain ⟨v', hv', hvsize, hvread, hvcsum⟩ :=
        (h.symm.otherEntry honly).copy (clean (m.write (a + l) d)) rfl (fun _ _ => rfl) v
      obtain ⟨w', hw', hwsize, hwread, hwcsum⟩ :=
        (h.symm.entry.congr hbytes).copy (clean m₂) rfl (fun _ _ => rfl) { w with csum := 0, size := 0 }
      have hsame : m₂.read (a + l) n = (m.write (a + l) d).read (p + l) n := by
        rw [h.symm.otherBytes honly]
        exact List.map_congr_left fun i hi => hbytes i (List.mem_range.1 hi)
      have ha := h.replica.2.1
      rw [novaVerifyEntryCsum_compare (getRepairedCopy_ok hv') (h.symm.alterLogEntry honly).2 (by omega)
          (by rw [hreads, hw', Oops.ok_bind]),
        compareCopies_same hvcsum hwcsum (by rw [hvsize, hvread, hwread, hsame])]
      refine ⟨fun heq => ?_, fun hrest => absurd (hrest.1 hunknown).1 hl⟩
      have hmem := Nvmm.clean_injective (Prod.mk.inj (Prod.mk.inj (Except.ok.inj heq)).2).2
      rw [hmem, h.toPage] at hself
      exact absurd hself h.apart
  · obtain ⟨t', ht⟩ := known_of_not_unknown hunknown
    rw [h.alter_iff honly (readsFrom_known ht w) honly ht v]
    simp [hunknown, CopyReadable]

/-- Bad media is not noticed. -/
theorem poison_fails (h : Twins m p a l n t) (main : Bool) (v w : EntryVars) :
    novaVerifyEntryCsum true (Damage.poison.apply m (if main then p + l else a + l)) (p + l) v w = .error .machineCheck := by
  have hbad : ∀ (nv : Nvmm) (e : Nat), nv.poisoned e = true → ∀ v, getEntryCopy nv e v = .error .machineCheck := by
    intro nv e hpoison v
    unfold getEntryCopy Nvmm.memcpyMcsafe
    rw [Nvmm.load_bad (show 0 < 1 by decide) hpoison]
    rfl
  cases main with
  | true => exact novaVerifyEntryCsum_error (getRepairedCopy_error (hbad _ _ (by simp [Damage.apply]) v))
  | false =>
      have hp := h.page
      have ha := h.replica
      have hplace := h.place
      have hfar := h.far
      have hradius := radius_of_page ha.1 l
      have hclean : ∀ o < 4096, (Damage.poison.apply m (a + l)).poisoned (p + o) = false := by
        intro o ho
        refine decide_eq_false fun hsame => ?_
        omega
      obtain ⟨v', hv', -⟩ := h.entry.copy (Damage.poison.apply m (a + l)) rfl
        (fun i hi => by rw [Nat.add_assoc]; exact hclean _ (by omega)) v
      have halter : (Damage.poison.apply m (a + l)).alterLogEntry (p + l) = .ok (a + l) :=
        alterLogEntry_ok hp.1 (by omega) h.toReplica ha.1 ha.2.2 fun i hi => by
          rw [Nat.add_assoc]
          exact hclean _ (by omega)
      show novaVerifyEntryCsum true (Damage.poison.apply m (a + l)) (p + l) v w = _
      rw [novaVerifyEntryCsum_alter (getRepairedCopy_ok hv') halter (by have h0 := ha.2.1; omega),
        getRepairedCopy_error (hbad _ _ (by simp [Damage.apply]) w), Oops.error_bind]

/-- **Repair restores the entry and nothing else exactly when the damage is of this kind.** -/
theorem novaVerifyEntryCsum_restores_iff (h : Twins m p a l n t) (main : Bool) (damage : Damage)
    (hd : ∀ d, damage = .bytes d → d.length = n) (v w : EntryVars) :
    novaVerifyEntryCsum true (damage.apply m (if main then p + l else a + l)) (p + l) v w =
        .ok (true, m.read (p + l) n, clean m) ↔
      Restorable m (if main then p else a) (if main then a else p) l main v damage := by
  cases damage with
  | poison =>
      rw [poison_fails h main v w]
      exact ⟨fun heq => (by cases heq), fun hrest => hrest.elim⟩
  | bytes d =>
      cases main with
      | true => exact bytes_main_iff h (hd d rfl) v w
      | false => exact bytes_alter_iff h (hd d rfl) v w

/-! ### One page and its replica -/

/-- The byte at a place of the page with a link change entry at place 64. -/
def linkPageByte (o : Nat) : UInt8 := if o < 64 then 0 else (4 :: (List.replicate 35 0 ++ [76, 85, 254, 252])).getD (o - 64) 0

/-- The page at 4096 and its replica at 8192. -/
def twinMem : ByteMem := fun x =>
  if x = 4096 + 4081 then 0x20
  else if x = 8192 + 4081 then 0x10
  else linkPageByte (x % 4096)

theorem twinMem_twins : Twins twinMem 4096 8192 64 40 .linkChange where
  page := ⟨by decide, by decide, by decide⟩
  replica := ⟨by decide, by decide, by decide⟩
  apart := by decide
  toReplica := by decide +kernel
  toPage := by decide +kernel
  same := by
    intro o ho
    unfold logBlockTail at ho
    unfold twinMem
    rw [if_neg (by omega), if_neg (by omega), if_neg (by omega), if_neg (by omega), Nat.add_mod_left,
      show (8192 + o) % 4096 = o % 4096 by omega]
  entry := ⟨by decide +kernel, fun _ => rfl, fun hdir => (by cases hdir), by decide +kernel⟩
  inside := by decide

/-- A replica of nines is written again. -/
theorem novaVerifyEntryCsum_restores_nines :
    novaVerifyEntryCsum true (clean (twinMem.write (8192 + 64) (List.replicate 40 9))) (4096 + 64) ⟨0, 0, fun _ => 0⟩
      ⟨0, 0, fun _ => 0⟩ = .ok (true, twinMem.read (4096 + 64) 40, clean twinMem) := by
  refine (novaVerifyEntryCsum_restores_iff twinMem_twins false (.bytes (List.replicate 40 9)) ?_ _ _).2 ⟨?_, ?_⟩
  · rintro d hd
    cases hd
    rfl
  · intro _
    refine ⟨by decide, fun hshort => ?_, fun hmain => (by cases hmain)⟩
    exact absurd hshort.1 (by decide +kernel)
  · intro hknown
    exact absurd (show UnknownType _ _ by unfold UnknownType; decide +kernel) hknown

/-- With bad media under the main copy the kernel stops. -/
theorem novaVerifyEntryCsum_poisoned :
    ¬∀ (m : ByteMem) (p a l n : Nat) (t : NovaEntryType) (main : Bool) (v w : EntryVars), Twins m p a l n t →
      novaVerifyEntryCsum true (Damage.poison.apply m (if main then p + l else a + l)) (p + l) v w =
        .ok (true, m.read (p + l) n, clean m) := by
  intro hall
  have hok := hall twinMem 4096 8192 64 40 .linkChange true ⟨0, 0, fun _ => 0⟩ ⟨0, 0, fun _ => 0⟩ twinMem_twins
  rw [poison_fails twinMem_twins true] at hok
  cases hok

end Parfs
