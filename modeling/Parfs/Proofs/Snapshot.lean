/-
What appenders make of a snapshot list.

An entry has its place: 127 of them fill a page, and the next one is in the next page of the chain.
That is kept by every turn, so a walk always comes by the appended entries in their order.  The
count of pages is another matter.  An appender that comes back with a page links it behind the page
the tail is in by then.  When others were faster that page may have a next page already, which is
lost; and where it has none the chain is a page longer than the tail says.
-/
import Parfs.Snapshot
import Parfs.Lib.Run
import Parfs.Proofs.LogPages
import Mathlib.Data.List.Nodup

namespace Parfs

open Lib ByteMem

variable {m m' : ByteMem} {p q x n i k fuel : Nat} {pages : List Nat} {es : List SnapshotEntry} {e : SnapshotEntry}
  {list : SnapshotList}

/-! ### Entries -/

namespace SnapshotEntry

@[simp] theorem bytes_length : e.bytes.length = 32 := by
  cases e <;> simp [bytes]

theorem read_congr (h : ∀ x, p ≤ x → x < p + 32 → m' x = m x) : read m' p = read m p := by
  have hword : ∀ o, o + 8 ≤ 32 → m'.word (p + o) 8 = m.word (p + o) 8 :=
    fun o ho => word_congr fun x h1 h2 => h x (by omega) (by omega)
  unfold read novaGetEntryType
  rw [h p (by omega) (by omega), h (p + 1) (by omega) (by omega), hword 8 (by omega), hword 16 (by omega),
    hword 24 (by omega)]

/-- **An entry is read as it was written.** -/
theorem read_write : read (m.write p e.bytes) p = some e := by
  have hbyte : ∀ o < 32, m.write p e.bytes (p + o) = e.bytes.getD o 0 :=
    fun o ho => write_of_inside (by rw [bytes_length]; exact ho)
  have hword : ∀ (o v : Nat) (pre post : List UInt8), e.bytes = pre ++ (leBytes 8 v ++ post) → pre.length = o →
      v < 2 ^ 64 → (m.write p e.bytes).word (p + o) 8 = v := by
    rintro o v pre post heq rfl hv
    have hread : (m.write p e.bytes).read p 32 = pre ++ (leBytes 8 v ++ post) := by
      have hall : (m.write p e.bytes).read p e.bytes.length = e.bytes := ByteMem.read_write
      rw [← heq, ← bytes_length (e := e)]
      exact hall
    rw [word_field hread]
    exact Nat.mod_eq_of_lt hv
  have htype : novaGetEntryType (m.write p e.bytes) p = (e.bytes.getD 0 0).toNat :=
    congrArg UInt8.toNat (hbyte 0 (by omega))
  unfold read
  rw [htype, hbyte 1 (by omega)]
  cases e with
  | inode deleted novaIno deleteEpochId =>
      have h1 := hword 16 novaIno.toNat ([1, deleted] ++ leBytes 6 0 ++ leBytes 8 0)
        (leBytes 8 deleteEpochId.toNat) (by simp [bytes]) (by simp) novaIno.toNat_lt
      have h2 := hword 24 deleteEpochId.toNat
        ([1, deleted] ++ leBytes 6 0 ++ leBytes 8 0 ++ leBytes 8 novaIno.toNat) [] (by simp [bytes]) (by simp)
        deleteEpochId.toNat_lt
      rw [h1, h2]
      simp [bytes]
  | fileWrite deleted nvmm numPages deleteEpochId =>
      have h1 := hword 8 nvmm.toNat ([2, deleted] ++ leBytes 6 0)
        (leBytes 8 numPages.toNat ++ leBytes 8 deleteEpochId.toNat) (by simp [bytes]) (by simp) nvmm.toNat_lt
      have h2 := hword 16 numPages.toNat ([2, deleted] ++ leBytes 6 0 ++ leBytes 8 nvmm.toNat)
        (leBytes 8 deleteEpochId.toNat) (by simp [bytes]) (by simp) numPages.toNat_lt
      have h3 := hword 24 deleteEpochId.toNat
        ([2, deleted] ++ leBytes 6 0 ++ leBytes 8 nvmm.toNat ++ leBytes 8 numPages.toNat) [] (by simp [bytes])
        (by simp) deleteEpochId.toNat_lt
      rw [h1, h2, h3]
      simp [bytes]

theorem type_of_read (h : read m p = some e) : novaGetEntryType m p ≠ NovaEntryType.nextPage.code := by
  intro htype
  unfold read at h
  rw [htype] at h
  cases h

end SnapshotEntry

/-! ### Places -/

/-- Where entry number `i` is. -/
def snapshotSlot (pages : List Nat) (i : Nat) : Nat := pages.getD (i / 127) 0 + 32 * (i % 127)

/-- Where `n` entries end. -/
def snapshotEnd (pages : List Nat) (n : Nat) : Nat :=
  if n = 0 then pages.getD 0 0 else snapshotSlot pages (n - 1) + 32

/-- The page `n` entries end in. -/
def endPage (n : Nat) : Nat := (n - 1) / 127

/-- **A list that holds these entries**, in the chain of these pages. -/
structure SnapshotLog (m : ByteMem) (list : SnapshotList) (pages : List Nat) (es : List SnapshotEntry) : Prop where
  chain : LogChain m list.head pages
  nodup : pages.Nodup
  room : endPage es.length < pages.length
  tail : list.tail = snapshotEnd pages es.length
  entries : ∀ i e, es[i]? = some e → SnapshotEntry.read m (snapshotSlot pages i) = some e

/-- The place behind `n` entries in its page. -/
theorem snapshotEnd_eq : snapshotEnd pages n =
    pages.getD (endPage n) 0 + (if n = 0 then 0 else 32 * ((n - 1) % 127) + 32) := by
  unfold snapshotEnd snapshotSlot endPage
  by_cases hn : n = 0
  · simp [hn]
  · simp only [hn, if_false]
    omega

/-- An entry begins where the entries before it end, or in the next page. -/
theorem snapshotEnd_slot (h : n = 0 ∨ n % 127 ≠ 0) : snapshotEnd pages n = snapshotSlot pages n := by
  unfold snapshotEnd snapshotSlot
  rcases h with rfl | h
  · simp
  · have hn : n ≠ 0 := by
      rintro rfl
      exact h rfl
    rw [if_neg hn]
    have hpage : (n - 1) / 127 = n / 127 := by omega
    rw [hpage]
    omega

theorem snapshotEnd_succ : snapshotEnd pages (n + 1) = snapshotSlot pages n + 32 := by
  unfold snapshotEnd
  rw [if_neg (Nat.succ_ne_zero n), Nat.add_sub_cancel]

/-- Pages are apart. -/
theorem getD_add_inj {a b o o' : Nat} (hpages : ∀ p ∈ pages, IsPage p) (hnodup : pages.Nodup) (ha : a < pages.length)
    (hb : b < pages.length) (ho : o < 4096) (ho' : o' < 4096)
    (h : pages.getD a 0 + o = pages.getD b 0 + o') : a = b ∧ o = o' := by
  have h1 := (hpages _ (getD_mem ha)).1
  have h2 := (hpages _ (getD_mem hb)).1
  have hsame : pages.getD a 0 = pages.getD b 0 := by omega
  rw [List.getD_eq_getElem _ _ ha, List.getD_eq_getElem _ _ hb] at hsame
  exact ⟨(List.Nodup.getElem_inj_iff hnodup).mp hsame, by rw [List.getD_eq_getElem _ _ ha, List.getD_eq_getElem _ _ hb] at h; omega⟩

namespace SnapshotLog

/-- No place before the last is the end. -/
theorem end_ne (h : SnapshotLog m list pages es) (hi : i < es.length) (hpos : 0 < i) :
    snapshotEnd pages i ≠ list.tail := by
  rw [h.tail, snapshotEnd_eq, snapshotEnd_eq]
  intro heq
  have hroom := h.room
  have hin : endPage i ≤ endPage es.length := Nat.div_le_div_right (by omega)
  have := getD_add_inj h.chain.isPage h.nodup (by omega) hroom (by split <;> omega) (by split <;> omega) heq
  unfold endPage at this
  rw [if_neg (by omega), if_neg (by omega)] at this
  omega

theorem slot_ne (h : SnapshotLog m list pages es) (hi : i < es.length) : snapshotSlot pages i ≠ list.tail := by
  rw [h.tail, snapshotEnd_eq]
  intro heq
  have hroom := h.room
  have hin : i / 127 ≤ endPage es.length := Nat.div_le_div_right (by omega)
  have := getD_add_inj h.chain.isPage h.nodup (by omega) hroom (by omega) (by split <;> omega) heq
  unfold endPage at this
  rw [if_neg (by omega)] at this
  omega

/-- The page of an entry. -/
theorem slotPage (h : SnapshotLog m list pages es) (hi : i < es.length) : IsPage (pages.getD (i / 127) 0) := by
  have hroom := h.room
  have hin : i / 127 ≤ endPage es.length := Nat.div_le_div_right (by omega)
  exact h.chain.isPage _ (getD_mem (by omega))

/-- The walk comes by an entry. -/
theorem visit (h : SnapshotLog m list pages es) (hi : es[i]? = some e) :
    deleteEntriesLoop m list.tail (fuel + 1) (snapshotSlot pages i) =
      (deleteEntriesLoop m list.tail fuel (snapshotEnd pages (i + 1))).map fun rest => some e :: rest := by
  obtain ⟨hlt, -⟩ := List.getElem?_eq_some_iff.mp hi
  obtain ⟨halign, hne, -⟩ := h.slotPage hlt
  have hread := h.entries i e hi
  have hgoto : gotoNextPage m (snapshotSlot pages i) = false := by
    have hloc : ¬entryLoc (snapshotSlot pages i) + 32 > logBlockTail := by
      unfold entryLoc logBlockTail snapshotSlot
      omega
    simp [gotoNextPage, hloc, SnapshotEntry.type_of_read hread]
  rw [deleteEntriesLoop, if_neg (h.slot_ne hlt), if_neg (by unfold snapshotSlot; omega), hgoto, hread, snapshotEnd_succ]
  simp

/-- The walk leaves a full page. -/
theorem turnPage (h : SnapshotLog m list pages es) (hi : i < es.length) (hpos : 0 < i) (hfull : i % 127 = 0) :
    deleteEntriesLoop m list.tail (fuel + 1) (snapshotEnd pages i) =
      deleteEntriesLoop m list.tail fuel (snapshotSlot pages i) := by
  have hroom := h.room
  have hin : i / 127 ≤ endPage es.length := Nat.div_le_div_right (by omega)
  have hprev : endPage i + 1 = i / 127 := by
    unfold endPage
    omega
  obtain ⟨halign, hne, -⟩ := h.chain.isPage _ (getD_mem (show endPage i < pages.length by omega))
  have hend : snapshotEnd pages i = pages.getD (endPage i) 0 + 4064 := by
    rw [snapshotEnd_eq, if_neg (by omega)]
    omega
  have hgoto : gotoNextPage m (snapshotEnd pages i) = true := by
    have hloc : entryLoc (snapshotEnd pages i) + 32 > logBlockTail := by
      unfold entryLoc logBlockTail
      omega
    simp [gotoNextPage, hloc]
  have hblock : blockOff (snapshotEnd pages i) = pages.getD (endPage i) 0 := by
    unfold blockOff
    omega
  have hnext : nextLogPage m (snapshotEnd pages i) = snapshotSlot pages i := by
    unfold nextLogPage snapshotSlot
    rw [hblock, h.chain.linked.next (by omega), hprev, hfull]
    rfl
  rw [deleteEntriesLoop, if_neg (h.end_ne hi hpos), if_neg (by omega), hgoto, if_pos rfl, hnext]

/-- The walk from behind `i` entries.  The induction is on the entries that are left. -/
theorem walkFrom (h : SnapshotLog m list pages es) : ∀ (left i fuel : Nat), i + left = es.length → 2 * left < fuel →
    deleteEntriesLoop m list.tail fuel (snapshotEnd pages i) = .ok ((es.drop i).map some) := by
  intro left
  induction left with
  | zero =>
      intro i fuel hi hfuel
      obtain ⟨fuel, rfl⟩ := Nat.exists_eq_add_one.mpr hfuel
      have hend : snapshotEnd pages i = list.tail := by
        rw [h.tail, ← hi, Nat.add_zero]
      rw [deleteEntriesLoop, if_pos hend, List.drop_of_length_le (by omega)]
      rfl
  | succ left ih =>
      intro i fuel hi hfuel
      obtain ⟨fuel, rfl⟩ : ∃ f, fuel = f + 2 := ⟨fuel - 2, by omega⟩
      have hlt : i < es.length := by omega
      have hget : es[i]? = some es[i] := List.getElem?_eq_getElem hlt
      have hvisit : ∀ f, 2 * left < f → deleteEntriesLoop m list.tail (f + 1) (snapshotSlot pages i) =
          .ok ((es.drop i).map some) := by
        intro f hf
        rw [h.visit hget, ih (i + 1) f (by omega) hf, List.drop_eq_getElem_cons hlt]
        rfl
      by_cases hturn : 0 < i ∧ i % 127 = 0
      · rw [h.turnPage hlt hturn.1 hturn.2]
        exact hvisit fuel (by omega)
      · rw [snapshotEnd_slot (by omega)]
        exact hvisit (fuel + 1) (by omega)

/-- **A walk comes by every entry once, in order.** -/
theorem walk (h : SnapshotLog m list pages es) (hfuel : 2 * es.length < fuel) :
    novaDeleteSnapshotListEntries m fuel list = .ok (es.map some) := by
  have hpos : 0 < pages.length := by
    have := h.room
    omega
  have hhead : list.head = snapshotEnd pages 0 := by
    rw [h.chain.head]
    cases pages with
    | nil => exact absurd hpos (Nat.lt_irrefl 0)
    | cons => rfl
  have hne : list.head ≠ 0 := by
    rw [hhead]
    exact (h.chain.isPage _ (getD_mem hpos)).2.1
  unfold novaDeleteSnapshotListEntries
  rw [if_neg (fun hz => hne hz.1), hhead]
  simpa using h.walkFrom es.length 0 fuel (by omega) hfuel

/-! ### A turn -/

/-- The bytes of a page that matter: its entries and its next pointer. -/
theorem congr (h : SnapshotLog m list pages es)
    (heq : ∀ p ∈ pages, ∀ x, p ≤ x → x < p + 4064 ∨ p + 4088 ≤ x → x < p + 4096 → m' x = m x) :
    SnapshotLog m' list pages es where
  chain := ⟨h.chain.linked.congr fun p hp => word_congr fun x h1 h2 => by
    unfold logBlockTail at h1 h2
    exact heq p hp x (by omega) (by omega) (by omega), h.chain.head, h.chain.isPage⟩
  nodup := h.nodup
  room := h.room
  tail := h.tail
  entries := by
    intro i e hi
    obtain ⟨hlt, -⟩ := List.getElem?_eq_some_iff.mp hi
    have hroom := h.room
    have hin : i / 127 ≤ endPage es.length := Nat.div_le_div_right (by omega)
    rw [SnapshotEntry.read_congr fun x h1 h2 => ?_]
    · exact h.entries i e hi
    · unfold snapshotSlot at h1 h2
      exact heq _ (getD_mem (show i / 127 < pages.length by omega)) x (by omega) (by omega) (by omega)

/-- The next entry is put into its place. -/
theorem put (h : SnapshotLog m list pages es) (hroom : es.length / 127 < pages.length) :
    SnapshotLog (m.write (snapshotSlot pages es.length) e.bytes)
      { list with tail := snapshotSlot pages es.length + 32 } pages (es ++ [e]) := by
  have hpage := h.chain.isPage
  have hlast := hpage _ (getD_mem hroom)
  have hout : ∀ x, x < snapshotSlot pages es.length ∨ snapshotSlot pages es.length + 32 ≤ x →
      m.write (snapshotSlot pages es.length) e.bytes x = m x := by
    intro x hx
    exact write_of_outside (by rw [SnapshotEntry.bytes_length]; exact hx)
  have hlen : (es ++ [e]).length = es.length + 1 := by simp
  refine ⟨⟨h.chain.linked.congr fun p hp => word_congr fun x h1 h2 => hout x ?_, h.chain.head, hpage⟩, h.nodup, ?_, ?_, ?_⟩
  · have halign := (hpage p hp).1
    have halign' := hlast.1
    unfold logBlockTail at h1 h2
    unfold snapshotSlot
    omega
  · rw [hlen]
    unfold endPage
    simpa using hroom
  · rw [hlen, snapshotEnd_succ]
  · intro i e' hi
    obtain ⟨hlt, -⟩ := List.getElem?_eq_some_iff.mp hi
    rw [hlen] at hlt
    by_cases hi' : i = es.length
    · subst hi'
      rw [List.getElem?_append_right (le_refl _), Nat.sub_self] at hi
      rw [← Option.some.inj hi]
      exact SnapshotEntry.read_write
    · rw [List.getElem?_append_left (by omega)] at hi
      have hroom' := h.room
      have hin : i / 127 ≤ endPage es.length := Nat.div_le_div_right (by omega)
      have hp := (hpage _ (getD_mem (show i / 127 < pages.length by omega))).1
      have hp' := hlast.1
      rw [SnapshotEntry.read_congr fun x h1 h2 => hout x ?_]
      · exact h.entries i e' hi
      · -- two places are apart
        have hne : ¬(pages.getD (i / 127) 0 = pages.getD (es.length / 127) 0 ∧ i % 127 = es.length % 127) := by
          rintro ⟨hsame, hmod⟩
          have := (getD_add_inj hpage h.nodup (show i / 127 < pages.length by omega) hroom (o := 0) (by omega)
            (by omega) (congrArg (· + 0) hsame)).1
          omega
        unfold snapshotSlot at h1 h2 ⊢
        omega

/-- The place behind the entries, by whether there is room in the page. -/
theorem tail_cases (h : SnapshotLog m list pages es) :
    (isLastEntry list.tail 32 = false ∧ list.tail = snapshotSlot pages es.length ∧ es.length / 127 = endPage es.length) ∨
      (isLastEntry list.tail 32 = true ∧ list.tail = pages.getD (endPage es.length) 0 + 4064 ∧
        es.length / 127 = endPage es.length + 1 ∧ es.length % 127 = 0) := by
  have halign := (h.chain.isPage _ (getD_mem h.room)).1
  have htail := h.tail
  have htail' := htail
  rw [snapshotEnd_eq] at htail
  by_cases hfull : 0 < es.length ∧ es.length % 127 = 0
  · right
    rw [if_neg (by omega)] at htail
    have hoff : list.tail = pages.getD (endPage es.length) 0 + 4064 := by omega
    refine ⟨?_, hoff, ?_, hfull.2⟩
    · unfold isLastEntry entryLoc logBlockTail
      rw [decide_eq_true_eq]
      omega
    · unfold endPage
      omega
  · left
    refine ⟨?_, ?_, ?_⟩
    · unfold isLastEntry entryLoc logBlockTail
      rw [decide_eq_false_iff_not]
      split at htail <;> omega
    · rw [htail', snapshotEnd_slot (by omega)]
    · unfold endPage
      omega

theorem blockOff_tail (h : SnapshotLog m list pages es) : blockOff list.tail = pages.getD (endPage es.length) 0 := by
  have halign := (h.chain.isPage _ (getD_mem h.room)).1
  have htail := h.tail
  rw [snapshotEnd_eq] at htail
  unfold blockOff
  split at htail <;> omega

/-- The next page of the page the entries end in. -/
theorem nextOfEnd (h : SnapshotLog m list pages es) :
    nextLogPage m list.tail = pages.getD (endPage es.length + 1) 0 := by
  unfold nextLogPage
  rw [h.blockOff_tail]
  exact h.chain.linked.next h.room

/-- The marker goes behind the last entry of a full page. -/
theorem flag (h : SnapshotLog m list pages es) (hlast : isLastEntry list.tail 32 = true) (v : Nat) :
    SnapshotLog (m.setWord list.tail 1 v) list pages es := by
  obtain ⟨hno, -⟩ | ⟨-, htail, -⟩ := h.tail_cases
  · rw [hno] at hlast
    cases hlast
  have halign := (h.chain.isPage _ (getD_mem h.room)).1
  refine h.congr fun p hp x h1 h2 h3 => setWord_of_outside ?_
  have := (h.chain.isPage p hp).1
  omega

/-- **A turn that writes.** -/
theorem turnWrite (h : SnapshotLog m list pages es)
    (hroom : isLastEntry list.tail 32 = true → endPage es.length + 1 < pages.length) :
    SnapshotLog (appendTurnWrite m list e.bytes).dram (appendTurnWrite m list e.bytes).list pages (es ++ [e]) ∧
      (appendTurnWrite m list e.bytes).retry = false ∧
      (appendTurnWrite m list e.bytes).list.numPages = list.numPages ∧
      ∀ x, (∀ p ∈ pages, x < p ∨ p + 4065 ≤ x) → (appendTurnWrite m list e.bytes).dram x = m x := by
  have hfar : ∀ y, (∃ p ∈ pages, p ≤ y ∧ y + 32 ≤ p + 4064) → ∀ (m₁ : ByteMem) x,
      (∀ p ∈ pages, x < p ∨ p + 4065 ≤ x) → m₁.write y e.bytes x = m₁ x := by
    rintro y ⟨p, hp, h1, h2⟩ m₁ x hx
    have := hx p hp
    exact write_of_outside (by rw [SnapshotEntry.bytes_length]; omega)
  have hslot : es.length / 127 < pages.length → ∃ p ∈ pages, p ≤ snapshotSlot pages es.length ∧
      snapshotSlot pages es.length + 32 ≤ p + 4064 := fun hlt => by
    refine ⟨_, getD_mem hlt, ?_, ?_⟩ <;> unfold snapshotSlot <;> omega
  unfold appendTurnWrite novaWriteSnapshotListEntry
  simp only [SnapshotEntry.bytes_length]
  obtain ⟨hlast, htail, hpage⟩ | ⟨hlast, htail, hpage, hmod⟩ := h.tail_cases
  · -- there is room in the page
    have hlt : es.length / 127 < pages.length := hpage ▸ h.room
    simp only [hlast, Bool.false_eq_true, if_false]
    rw [htail]
    exact ⟨h.put hlt, trivial, trivial, fun x hx => hfar _ (hslot hlt) m x hx⟩
  · -- the next page is there
    have hlt : es.length / 127 < pages.length := hpage ▸ hroom hlast
    have hflag := h.flag hlast NovaEntryType.nextPage.code
    have hnext : nextLogPage (m.setWord list.tail 1 NovaEntryType.nextPage.code) list.tail =
        snapshotSlot pages es.length := by
      rw [hflag.nextOfEnd, ← hpage]
      unfold snapshotSlot
      rw [hmod]
      rfl
    have hfits : isLastEntry (snapshotSlot pages es.length) 32 = false := by
      have halign := (h.chain.isPage _ (getD_mem hlt)).1
      unfold isLastEntry entryLoc logBlockTail snapshotSlot
      rw [decide_eq_false_iff_not]
      omega
    simp only [hlast, if_true, hnext, hfits, Bool.false_eq_true, if_false]
    refine ⟨hflag.put hlt, trivial, trivial, fun x hx => ?_⟩
    rw [hfar _ (hslot hlt) _ x hx]
    have := hx _ (getD_mem h.room)
    exact setWord_of_outside (by omega)

/-- **A page is linked behind the page the entries end in.**  What was behind it is lost. -/
theorem link (h : SnapshotLog m list pages es) (hq : IsPage q) (hnew : q ∉ pages) (hnext : nextPage m q = 0) :
    SnapshotLog (novaSetNextPageAddress m (blockOff list.tail) q) { list with numPages := list.numPages + 1 }
      (pages.take (endPage es.length + 1) ++ [q]) es := by
  have hpage := h.chain.isPage
  have hroom := h.room
  have htake : pages.take (endPage es.length + 1) =
      pages.take (endPage es.length) ++ [pages.getD (endPage es.length) 0] := by
    rw [List.take_add_one, List.getD_eq_getElem _ _ hroom, List.getElem?_eq_getElem hroom]
    rfl
  have hsub : ∀ p ∈ pages.take (endPage es.length + 1), p ∈ pages := fun p hp => List.mem_of_mem_take hp
  have hlen : (pages.take (endPage es.length + 1)).length = endPage es.length + 1 := by
    rw [List.length_take]
    omega
  have hkept : ∀ i ≤ endPage es.length, (pages.take (endPage es.length + 1) ++ [q]).getD i 0 = pages.getD i 0 := by
    intro i hi
    rw [List.getD_append _ _ _ _ (by omega), List.getD_eq_getElem _ _ (by omega), List.getD_eq_getElem _ _ (by omega),
      List.getElem_take]
  have hlast := hpage _ (getD_mem hroom)
  have hne : q ≠ pages.getD (endPage es.length) 0 := fun heq => hnew (heq ▸ getD_mem hroom)
  have hout : ∀ x, x < pages.getD (endPage es.length) 0 + 4088 ∨ pages.getD (endPage es.length) 0 + 4096 ≤ x →
      novaSetNextPageAddress m (blockOff list.tail) q x = m x := by
    intro x hx
    rw [h.blockOff_tail]
    unfold novaSetNextPageAddress logBlockTail
    exact setWord_of_outside (by omega)
  refine ⟨⟨?_, ?_, ?_⟩, ?_, ?_, ?_, ?_⟩
  · rw [linkedTo_append]
    constructor
    · -- the chain up to the page, linked to the new one
      have hold : LinkedTo m ((pages.drop (endPage es.length + 1)).headD 0) (pages.take (endPage es.length + 1)) := by
        have := h.chain.linked
        rw [← List.take_append_drop (endPage es.length + 1) pages, linkedTo_append] at this
        exact this.1
      have hnodup := h.nodup.sublist (List.take_sublist (endPage es.length + 1) pages)
      rw [htake] at hold hnodup ⊢
      rw [h.blockOff_tail]
      refine hold.relink hlast.1 (fun p hp => (hpage p (List.mem_of_mem_take hp)).1) (fun hin => ?_) hq.2.2
      exact (List.nodup_append.mp hnodup).2.2 _ hin _ (List.mem_singleton_self _) rfl
    · refine ⟨?_, trivial⟩
      refine (word_congr fun x h1 h2 => hout x ?_).trans hnext
      have := hq.1
      have := hlast.1
      unfold logBlockTail at h1 h2
      omega
  · show list.head = _
    rw [h.chain.head]
    cases pages with
    | nil => exact absurd hroom (Nat.not_lt_zero _)
    | cons => rfl
  · intro p hp
    rcases List.mem_append.mp hp with hp | hp
    · exact hpage p (hsub p hp)
    · rw [List.mem_singleton.mp hp]
      exact hq
  · refine List.nodup_append.mpr ⟨h.nodup.sublist (List.take_sublist _ _), List.nodup_singleton q, ?_⟩
    rintro p hp _ hp' rfl
    rw [List.mem_singleton] at hp'
    exact hnew (hp' ▸ hsub p hp)
  · rw [List.length_append, hlen]
    omega
  · show list.tail = _
    rw [h.tail, snapshotEnd_eq, snapshotEnd_eq, hkept _ (le_refl _)]
  · intro i e hi
    obtain ⟨hlt, -⟩ := List.getElem?_eq_some_iff.mp hi
    have hin : i / 127 ≤ endPage es.length := Nat.div_le_div_right (by omega)
    have hslot : snapshotSlot (pages.take (endPage es.length + 1) ++ [q]) i = snapshotSlot pages i := by
      unfold snapshotSlot
      rw [hkept _ hin]
    rw [hslot, SnapshotEntry.read_congr fun x h1 h2 => hout x ?_]
    · exact h.entries i e hi
    · have := (hpage _ (getD_mem (show i / 127 < pages.length by omega))).1
      have := hlast.1
      unfold snapshotSlot at h1 h2
      omega

end SnapshotLog

/-! ### Appenders -/

section Appenders

variable {r r' : SnapshotRun} {a : SnapshotAct} {epochId : Nat} {others : List (SnapshotEntry × Nat)}

/-- What holds of a list and its appenders in every state: the list holds what was appended, and
the pages the appenders have in their hands are new. -/
structure SnapshotRun.Inv (r : SnapshotRun) (pages : List Nat) : Prop where
  log : SnapshotLog r.dram r.list pages r.appended
  owned : ∀ p ∈ pages, p ∈ r.owned
  held : ∀ w ∈ r.waiting, w.2 ≠ 0 → IsPage w.2 ∧ w.2 ∈ r.owned ∧ w.2 ∉ pages ∧ nextPage r.dram w.2 = 0
  apart : r.waiting.Pairwise fun v w => v.2 = w.2 → v.2 = 0

/-- The list has the pages it counts, and the entries end in the last of them. -/
def SnapshotRun.Tight (r : SnapshotRun) (pages : List Nat) : Prop :=
  r.list.numPages = pages.length ∧ endPage r.appended.length + 1 = pages.length

/-- An appender that comes back finds the list as it left it: the tail at the end of a page that
has no next page. -/
def SnapshotAct.Undisturbed (r : SnapshotRun) : SnapshotAct → Prop
  | .retry => isLastEntry r.list.tail 32 = true ∧ nextLogPage r.dram r.list.tail = 0
  | _ => True

/-- Bytes of pages that are not of the chain. -/
theorem nextPage_of_far (hframe : ∀ x, (∀ p ∈ pages, x < p ∨ p + 4096 ≤ x) → m' x = m x)
    (hpages : ∀ p ∈ pages, p % 4096 = 0) (hq : q % 4096 = 0) (hnot : q ∉ pages) : nextPage m' q = nextPage m q := by
  refine word_congr fun x h1 h2 => hframe x fun p hp => ?_
  have hne : p ≠ q := fun heq => hnot (heq ▸ hp)
  have := hpages p hp
  unfold logBlockTail at h1 h2
  omega

/-- **The first turn**: the entry is written, or there is no page to go on in. -/
theorem SnapshotLog.turnZero (h : SnapshotLog m list pages es) :
    (∀ x, (∀ p ∈ pages, x < p ∨ p + 4096 ≤ x) → (novaAppendSnapshotListEntry m list e.bytes 0).dram x = m x) ∧
      (((novaAppendSnapshotListEntry m list e.bytes 0).retry = true ∧ isLastEntry list.tail 32 = true ∧
        (novaAppendSnapshotListEntry m list e.bytes 0).list = list ∧
        SnapshotLog (novaAppendSnapshotListEntry m list e.bytes 0).dram list pages es) ∨
      ((novaAppendSnapshotListEntry m list e.bytes 0).retry = false ∧
        (novaAppendSnapshotListEntry m list e.bytes 0).list.numPages = list.numPages ∧
        (es.length / 127 = endPage es.length ∨ endPage es.length + 1 < pages.length) ∧
        SnapshotLog (novaAppendSnapshotListEntry m list e.bytes 0).dram
          (novaAppendSnapshotListEntry m list e.bytes 0).list pages (es ++ [e]))) := by
  unfold novaAppendSnapshotListEntry
  simp only [ne_eq, not_true_eq_false, if_false, if_true, SnapshotEntry.bytes_length, h.nextOfEnd]
  by_cases hfull : isLastEntry list.tail 32 = true ∧ pages.getD (endPage es.length + 1) 0 = 0
  · rw [if_pos hfull]
    refine ⟨fun x hx => ?_, Or.inl ⟨rfl, hfull.1, rfl, h.flag hfull.1 _⟩⟩
    obtain ⟨hno, -⟩ | ⟨-, htail, -⟩ := h.tail_cases
    · rw [hno] at hfull
      exact absurd hfull.1 (by simp)
    · have := hx _ (getD_mem h.room)
      exact setWord_of_outside (by omega)
  · rw [if_neg hfull]
    have hroom : isLastEntry list.tail 32 = true → endPage es.length + 1 < pages.length := by
      intro hlast
      by_contra hno
      exact hfull ⟨hlast, List.getD_eq_default _ _ (by omega)⟩
    obtain ⟨hlog, hretry, hcount, hframe⟩ := h.turnWrite (e := e) hroom
    refine ⟨fun x hx => hframe x fun p hp => ?_, Or.inr ⟨hretry, hcount, ?_, hlog⟩⟩
    · have := hx p hp
      omega
    · obtain ⟨-, -, hpage⟩ | ⟨hlast, -⟩ := h.tail_cases
      · exact Or.inl hpage
      · exact Or.inr (hroom hlast)

/-- **The turn with a page**: it is linked, and the entry is written. -/
theorem SnapshotLog.turnLink (h : SnapshotLog m list pages es) (hq : IsPage q) (hnew : q ∉ pages)
    (hnext : nextPage m q = 0) :
    (∀ x, (∀ p ∈ pages ++ [q], x < p ∨ p + 4096 ≤ x) → (novaAppendSnapshotListEntry m list e.bytes q).dram x = m x) ∧
      (novaAppendSnapshotListEntry m list e.bytes q).retry = false ∧
      (novaAppendSnapshotListEntry m list e.bytes q).list.numPages = list.numPages + 1 ∧
      SnapshotLog (novaAppendSnapshotListEntry m list e.bytes q).dram
        (novaAppendSnapshotListEntry m list e.bytes q).list (pages.take (endPage es.length + 1) ++ [q]) (es ++ [e]) := by
  have hlink := h.link hq hnew hnext
  have hroom := h.room
  have hlen : (pages.take (endPage es.length + 1)).length = endPage es.length + 1 := by
    rw [List.length_take]
    omega
  have hlinked : nextLogPage (novaSetNextPageAddress m (blockOff list.tail) q) list.tail = q := by
    refine hlink.nextOfEnd.trans ?_
    rw [List.getD_append_right _ _ _ _ (by omega), hlen, Nat.sub_self]
    rfl
  unfold novaAppendSnapshotListEntry
  simp only [ne_eq, hq.2.1, not_false_eq_true, if_true, hlinked, and_false, if_false]
  obtain ⟨hlog, hretry, hcount, hframe⟩ := hlink.turnWrite (e := e) fun _ => by
    rw [List.length_append, hlen]
    simp
  refine ⟨fun x hx => ?_, hretry, hcount, hlog⟩
  rw [hframe x fun p hp => ?_]
  · have := hx _ (List.mem_append_left _ (getD_mem hroom))
    rw [h.blockOff_tail]
    unfold novaSetNextPageAddress logBlockTail
    exact setWord_of_outside (by omega)
  · have := hx p ?_
    · omega
    · rcases List.mem_append.mp hp with hp | hp
      · exact List.mem_append_left _ (List.mem_of_mem_take hp)
      · exact List.mem_append_right _ hp

/-- A page just allocated has no next page. -/
theorem nextPage_linkPage : nextPage (linkPage m p epochId) p = 0 := by
  have hzero : 0 < 256 ^ 8 := by norm_num
  unfold linkPage novaSetNextPageAddress
  exact word_setWord hzero

namespace SnapshotRun

/-- A turn that wrote the entry. -/
theorem after_written {t : AppendTurn} (h : t.retry = false) :
    r.after t e others = { r with
      dram := t.dram
      list := t.list
      waiting := others
      appended := r.appended ++ [e] } := by
  unfold after
  rw [h]
  rfl

/-- The other appenders. -/
theorem others_sublist {before after : List (SnapshotEntry × Nat)} {w : SnapshotEntry × Nat}
    (hwaiting : r.waiting = before ++ w :: after) : List.Sublist (before ++ after) r.waiting := by
  rw [hwaiting]
  exact (List.Sublist.refl before).append (List.sublist_cons_self _ _)

namespace Inv

/-- Pages in hand after a turn that stays in the chain. -/
theorem heldAfter (h : r.Inv pages) (hframe : ∀ x, (∀ p ∈ pages, x < p ∨ p + 4096 ≤ x) → m' x = r.dram x) :
    ∀ w ∈ r.waiting, w.2 ≠ 0 → IsPage w.2 ∧ w.2 ∈ r.owned ∧ w.2 ∉ pages ∧ nextPage m' w.2 = 0 := by
  intro w hw hne
  obtain ⟨h1, h2, h3, h4⟩ := h.held w hw hne
  exact ⟨h1, h2, h3, (nextPage_of_far hframe (fun p hp => (h.log.chain.isPage p hp).1) h1.1 h3).trans h4⟩

theorem start (h : r.Inv pages) :
    (r.after (novaAppendSnapshotListEntry r.dram r.list e.bytes 0) e r.waiting).Inv pages ∧
      (r.Tight pages → (r.after (novaAppendSnapshotListEntry r.dram r.list e.bytes 0) e r.waiting).Tight pages) := by
  obtain ⟨hframe, ⟨hretry, -, hlist, hlog⟩ | ⟨hretry, hcount, hroom, hlog⟩⟩ := h.log.turnZero (e := e)
  · unfold after
    simp only [hretry, hlist, if_true]
    refine ⟨⟨hlog, h.owned, ?_, ?_⟩, id⟩
    · intro w hw hne
      rcases List.mem_cons.mp hw with rfl | hw
      · exact absurd rfl hne
      · exact h.heldAfter hframe w hw hne
    · exact List.pairwise_cons.mpr ⟨fun _ _ _ => rfl, h.apart⟩
  · rw [after_written hretry]
    refine ⟨⟨hlog, h.owned, h.heldAfter hframe, h.apart⟩, fun htight => ⟨hcount.trans htight.1, ?_⟩⟩
    have hlast := htight.2
    show endPage (r.appended ++ [e]).length + 1 = _
    rw [List.length_append, List.length_singleton]
    unfold endPage at hroom hlast ⊢
    rw [Nat.add_sub_cancel]
    omega

theorem kmalloc {before after : List (SnapshotEntry × Nat)} (h : r.Inv pages)
    (hwaiting : r.waiting = before ++ (e, 0) :: after) (hpage : IsPage p) (hnew : p ∉ r.owned) :
    ({ r with
        dram := linkPage r.dram p epochId
        waiting := before ++ (e, p) :: after
        owned := p :: r.owned } : SnapshotRun).Inv pages := by
  have hout : ∀ x, x < p + 4064 ∨ p + 4096 ≤ x → linkPage r.dram p epochId x = r.dram x := by
    intro x hx
    unfold linkPage novaSetNextPageAddress novaSetLinkPageEpochId logBlockTail
    rw [setWord_of_outside (by omega), setWord_of_outside (by omega)]
  have hother : ∀ q ∈ r.owned, IsPage q → ∀ x, q ≤ x → x < q + 4096 → linkPage r.dram p epochId x = r.dram x := by
    intro q hq hpage' x h1 h2
    have hne : q ≠ p := fun heq => hnew (heq ▸ hq)
    have := hpage.1
    have := hpage'.1
    exact hout x (by omega)
  have hwait : ∀ w ∈ before ++ after, w ∈ r.waiting := fun w hw => (others_sublist hwaiting).subset hw
  have hheld : ∀ w ∈ before ++ after, w.2 ≠ 0 → IsPage w.2 ∧ w.2 ∈ p :: r.owned ∧ w.2 ∉ pages ∧
      nextPage (linkPage r.dram p epochId) w.2 = 0 := by
    intro w hw hne
    obtain ⟨h1, h2, h3, h4⟩ := h.held w (hwait w hw) hne
    refine ⟨h1, List.mem_cons_of_mem _ h2, h3, (word_congr fun x h5 h6 => ?_).trans h4⟩
    unfold logBlockTail at h5 h6
    exact hother _ h2 h1 x (by omega) (by omega)
  refine ⟨h.log.congr fun q hq x h1 h2 h3 => ?_, fun q hq => List.mem_cons_of_mem _ (h.owned q hq), ?_, ?_⟩
  · exact hother q (h.owned q hq) (h.log.chain.isPage q hq) x h1 h3
  · intro w hw hne
    simp only [List.mem_append, List.mem_cons] at hw
    rcases hw with hw | rfl | hw
    · exact hheld w (List.mem_append_left _ hw) hne
    · exact ⟨hpage, List.mem_cons_self, fun hin => hnew (h.owned _ hin), nextPage_linkPage⟩
    · exact hheld w (List.mem_append_right _ hw) hne
  · have hsymm : ∀ {v w : SnapshotEntry × Nat}, (v.2 = w.2 → v.2 = 0) → w.2 = v.2 → w.2 = 0 :=
      fun hvw heq => heq.trans (hvw heq.symm)
    have hold := h.apart
    rw [hwaiting, List.pairwise_middle hsymm, List.pairwise_cons] at hold
    refine (List.pairwise_middle hsymm).mpr (List.pairwise_cons.mpr ⟨fun w hw heq => ?_, hold.2⟩)
    have hsame : w.2 = p := heq.symm
    by_contra hne
    have hne' : w.2 ≠ 0 := fun hzero => hne (heq.trans hzero)
    have hin := (h.held w (hwait w hw) hne').2.1
    rw [hsame] at hin
    exact hnew hin

theorem enomem {before after : List (SnapshotEntry × Nat)} (h : r.Inv pages)
    (hwaiting : r.waiting = before ++ (e, 0) :: after) :
    ({ r with waiting := before ++ after } : SnapshotRun).Inv pages := by
  have hsub := others_sublist hwaiting
  exact ⟨h.log, h.owned, fun w hw => h.held w (hsub.subset hw), h.apart.sublist hsub⟩

theorem retry {before after : List (SnapshotEntry × Nat)} (h : r.Inv pages)
    (hwaiting : r.waiting = before ++ (e, q) :: after) (hq : q ≠ 0) :
    (r.after (novaAppendSnapshotListEntry r.dram r.list e.bytes q) e (before ++ after)).Inv
        (pages.take (endPage r.appended.length + 1) ++ [q]) ∧
      (r.after (novaAppendSnapshotListEntry r.dram r.list e.bytes q) e (before ++ after)).list.numPages =
        r.list.numPages + 1 := by
  have hmem : (e, q) ∈ r.waiting := by
    rw [hwaiting]
    simp
  obtain ⟨hpage, howned, hnew, hnext⟩ := h.held _ hmem hq
  have hsymm : ∀ {v w : SnapshotEntry × Nat}, (v.2 = w.2 → v.2 = 0) → w.2 = v.2 → w.2 = 0 :=
    fun hvw heq => heq.trans (hvw heq.symm)
  have happart := h.apart
  rw [hwaiting, List.pairwise_middle hsymm, List.pairwise_cons] at happart
  have hwait : ∀ w ∈ before ++ after, w ∈ r.waiting := fun w hw => (others_sublist hwaiting).subset hw
  obtain ⟨hframe, hretry, hcount, hlog⟩ := h.log.turnLink (e := e) hpage hnew hnext
  rw [after_written hretry]
  refine ⟨⟨hlog, ?_, ?_, happart.2⟩, hcount⟩
  · intro p hp
    rcases List.mem_append.mp hp with hp | hp
    · exact h.owned p (List.mem_of_mem_take hp)
    · rw [List.mem_singleton.mp hp]
      exact howned
  · intro w hw hne
    obtain ⟨h1, h2, h3, h4⟩ := h.held w (hwait w hw) hne
    have hother : w.2 ≠ q := fun heq => hq (happart.1 w hw heq.symm)
    have hnot : w.2 ∉ pages ++ [q] := by
      rw [List.mem_append, List.mem_singleton]
      exact fun hin => hin.elim h3 hother
    refine ⟨h1, h2, fun hin => hnot ?_, (nextPage_of_far hframe ?_ h1.1 hnot).trans h4⟩
    · rcases List.mem_append.mp hin with hin | hin
      · exact List.mem_append_left _ (List.mem_of_mem_take hin)
      · exact List.mem_append_right _ hin
    · intro p hp
      rcases List.mem_append.mp hp with hp | hp
      · exact (h.log.chain.isPage p hp).1
      · rw [List.mem_singleton.mp hp]
        exact hpage.1

/-- **Every step keeps the list in order**, and what is tight stays so as long as the appenders
that come back are undisturbed. -/
theorem step (h : r.Inv pages) (hstep : SnapshotStep epochId r a r') :
    ∃ pages', r'.Inv pages' ∧ (r.Tight pages → a.Undisturbed r → r'.Tight pages') := by
  cases hstep with
  | start e => exact ⟨pages, h.start.1, fun htight _ => h.start.2 htight⟩
  | kmalloc before after e page hwaiting hpage hnew =>
      exact ⟨pages, h.kmalloc hwaiting hpage hnew, fun htight _ => htight⟩
  | enomem before after e hwaiting => exact ⟨pages, h.enomem hwaiting, fun htight _ => htight⟩
  | retry before after e page hwaiting hpage =>
      obtain ⟨hinv, hcount⟩ := h.retry hwaiting hpage
      refine ⟨_, hinv, fun htight hundisturbed => ?_⟩
      have hlast : isLastEntry r.list.tail 32 = true := hundisturbed.1
      have hlen : (pages.take (endPage r.appended.length + 1) ++ [page]).length = pages.length + 1 := by
        rw [List.length_append, List.length_take, htight.2]
        simp
      have hroom := hinv.log.room
      obtain ⟨hno, -⟩ | ⟨-, -, hnew, -⟩ := h.log.tail_cases
      · rw [hno] at hlast
        cases hlast
      · refine ⟨by rw [hcount, htight.1, hlen], ?_⟩
        rw [hlen, ← htight.2]
        have happ : (r.after (novaAppendSnapshotListEntry r.dram r.list e.bytes page) e (before ++ after)).appended =
            r.appended ++ [e] := by
          obtain ⟨hp, -, hnot, hnext⟩ := h.held (e, page) (by rw [hwaiting]; simp) hpage
          rw [after_written (h.log.turnLink (e := e) hp hnot hnext).2.1]
        rw [happ, List.length_append, List.length_singleton]
        unfold endPage at hnew ⊢
        rw [Nat.add_sub_cancel]
        omega

end Inv

theorem init_inv (m : ByteMem) (hpage : IsPage p) :
    (SnapshotRun.init m p epochId).Inv [p] ∧ (SnapshotRun.init m p epochId).Tight [p] := by
  have hchain : LogChain (linkPage m p epochId) p [p] :=
    ⟨⟨nextPage_linkPage, trivial⟩, rfl, fun q hq => by rw [List.mem_singleton.mp hq]; exact hpage⟩
  have hlog : SnapshotLog (linkPage m p epochId) ⟨1, p, p⟩ [p] [] :=
    ⟨hchain, List.nodup_singleton p, Nat.zero_lt_one, rfl, fun i e hi => by simp at hi⟩
  have htight : endPage ([] : List SnapshotEntry).length + 1 = [p].length := by
    unfold endPage
    rfl
  exact ⟨⟨hlog, fun q hq => hq, fun w hw => absurd hw List.not_mem_nil, List.Pairwise.nil⟩, rfl, htight⟩

/-- **In every state a walk comes by what was appended, once and in order.** -/
theorem walk_of_runs (hpage : IsPage p) (hrun : Runs (SnapshotStep epochId) (SnapshotRun.init m p epochId) r)
    (hfuel : 2 * r.appended.length < fuel) :
    novaDeleteSnapshotListEntries r.dram fuel r.list = .ok (r.appended.map some) := by
  have hkeep : ∀ (s : SnapshotRun) (a : SnapshotAct) (t : SnapshotRun), (∃ pages, s.Inv pages) →
      SnapshotStep epochId s a t → ∃ pages, t.Inv pages :=
    fun _ _ _ ⟨_, h⟩ hstep => (h.step hstep).imp fun _ h' => h'.1
  obtain ⟨pages, h⟩ := Runs.invariant hkeep hrun ⟨[p], (init_inv m hpage).1⟩
  exact h.log.walk hfuel

/-- In an undisturbed run the list has the pages it counts and ends in the last of them. -/
theorem tight_of_runs (hpage : IsPage p)
    (hrun : Runs (Guarded SnapshotAct.Undisturbed (SnapshotStep epochId)) (SnapshotRun.init m p epochId) r) :
    ∃ pages, r.Inv pages ∧ r.Tight pages := by
  have hkeep : ∀ (s : SnapshotRun) (a : SnapshotAct) (t : SnapshotRun), (∃ pages, s.Inv pages ∧ s.Tight pages) →
      Guarded SnapshotAct.Undisturbed (SnapshotStep epochId) s a t → ∃ pages, t.Inv pages ∧ t.Tight pages :=
    fun _ _ _ ⟨_, h, htight⟩ ⟨hguard, hstep⟩ => (h.step hstep).imp fun _ h' => ⟨h'.1, h'.2 htight hguard⟩
  exact Runs.invariant hkeep hrun ⟨[p], init_inv m hpage⟩

end SnapshotRun

end Appenders

end Parfs
