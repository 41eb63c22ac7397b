/-
What the calls delegate.

A write remembers that it has delegated something: whatever a turn leaves for an agent sets its
flag, and the flag stays.  A read does too, but where it returns from inside its loop it does not
look.  Up to there it has been to the pages before the one it stops at, so it owes nothing when
none of those is mapped.
-/
import Parfs.Proofs.Delegation

namespace Parfs

open Lib

/-! ### Reads -/

/-- All that counts as copied was transferred, page by page at most. -/
structure Tiled (copied : Nat) (transfers : List Transfer) : Prop where
  covers : ∀ k < copied, ∃ t ∈ transfers, t.left = 0 ∧ t.buf ≤ k ∧ k < t.buf + t.num
  pages : ∀ t ∈ transfers, t.num ≤ 4096

/-- The read so far, while it goes on. -/
structure Traced (f : FileTree) (c : ReadCall) (w : ReadLoop) : Prop where
  start : c.pos / 4096 ≤ w.index
  tiled : Tiled w.copied w.transfers
  /-- What was delegated is of pages behind. -/
  behind : ∀ t ∈ w.transfers, t.delegated = true → ∃ q, c.pos / 4096 ≤ q ∧ q < w.index ∧ f.tree.slot q ≠ none

/-- The entry of a page can be had, and is one of the page. -/
def ReadCall.Finds (f : FileTree) (c : ReadCall) (p entry : Nat) : Prop :=
  c.entryCopy entry = true ∧ (f.entries entry).pgoff ≤ p ∧ p - (f.entries entry).pgoff < (f.entries entry).numPages

/-- A page the read cannot go past is the first one that is mapped. -/
def ReadCall.Unbroken (f : FileTree) (c : ReadCall) : Prop :=
  ∀ p entry, f.tree.slot p = some entry → c.pos / 4096 ≤ p →
    c.Finds f p entry ∨ ∀ q, c.pos / 4096 ≤ q → q < p → f.tree.slot q = none

/-- What is so after some of the loop. -/
structure Went (f : FileTree) (c : ReadCall) (w : ReadLoop) (exit : Option ReadExit) : Prop where
  tiled : Tiled w.copied w.transfers
  goesOn : exit = none → Traced f c w
  outs : ∀ error, exit = some (.out error) → error ≤ 0
  returns : ∀ code, exit = some (.returns code) →
    Traced f c w ∧ code < 0 ∧ ∃ entry, f.tree.slot w.index = some entry ∧ ¬ c.Finds f w.index entry

section

variable {f : FileTree} {c : ReadCall} {w w' : ReadLoop} {src : Option (Nat × Nat)} {num q : Nat}

theorem Went.on (h : Traced f c w) : Went f c w none := ⟨h.tiled, fun _ => h, nofun, nofun⟩

theorem Went.out {error : Int} (h : Tiled w.copied w.transfers) (herror : error ≤ 0) : Went f c w (some (.out error)) where
  tiled := h
  goesOn := nofun
  outs := by
    intro error' h'
    cases h'
    exact herror
  returns := nofun

theorem Tiled.transfer (h : Tiled w.copied w.transfers) (hnum : num ≤ 4096) :
    Tiled (w.transfer c src num).copied (w.transfer c src num).transfers where
  covers := by
    intro k hk
    obtain ⟨t, ht, hin⟩ := h.covers k hk
    exact ⟨t, List.mem_append_left _ ht, hin⟩
  pages := by
    intro t ht
    rcases List.mem_append.mp ht with ht | ht
    · exact h.pages t ht
    · rw [List.mem_singleton.mp ht]
      exact hnum

/-- A transfer that leaves nothing, and on. -/
theorem Tiled.advance (h : Tiled w.copied w.transfers) (hnum : num ≤ 4096) (hleft : w.leaves c num = 0) :
    Tiled (w.copied + num) (w.transfer c src num).transfers where
  covers := by
    intro k hk
    by_cases hlt : k < w.copied
    · exact (h.transfer hnum).covers k hlt
    · exact ⟨_, List.mem_append_right _ (List.mem_singleton_self _), hleft, Nat.le_of_not_lt hlt, hk⟩
  pages := (h.transfer hnum).pages

theorem Traced.advance (h : Traced f c w) (hpage : src.isSome = true → c.pos / 4096 ≤ q ∧ q ≤ w.index ∧ f.tree.slot q ≠ none)
    (hnum : num ≤ 4096) (hleft : w.leaves c num = 0) (htransfers : w'.transfers = (w.transfer c src num).transfers)
    (hcopied : w'.copied = w.copied + num) (hindex : w.index ≤ w'.index)
    (hwhole : 4096 ≤ num → w.index < w'.index) : Traced f c w' where
  start := h.start.trans hindex
  tiled := by
    rw [htransfers, hcopied]
    exact h.tiled.advance hnum hleft
  behind := by
    intro t ht hdele
    rw [htransfers] at ht
    rcases List.mem_append.mp ht with ht | ht
    · obtain ⟨p, hlo, hhi, hslot⟩ := h.behind t ht hdele
      exact ⟨p, hlo, hhi.trans_le hindex, hslot⟩
    · rw [List.mem_singleton.mp ht] at hdele
      obtain ⟨hsrc, hnum⟩ := Bool.and_eq_true_iff.mp hdele
      obtain ⟨hlo, hle, hslot⟩ := hpage hsrc
      exact ⟨q, hlo, hle.trans_lt (hwhole (of_decide_eq_true hnum)), hslot⟩

theorem Traced.wholeBlocks {e : NovaFileWriteEntry} {fuel nr nr' : Nat} {exit : Option ReadExit} (h : Traced f c w)
    (hpage : c.pos / 4096 ≤ q ∧ q ≤ w.index ∧ f.tree.slot q ≠ none) (hfuel : (nr + w.offset) / 4096 ≤ fuel)
    (heq : w.wholeBlocks c e fuel nr = ((w', exit), nr')) :
    Went f c w' exit ∧ w.index ≤ w'.index ∧ (exit = none → nr' + w'.offset < 4096) := by
  induction fuel generalizing w nr with
  | zero =>
      cases heq
      exact ⟨.on h, le_rfl, fun _ => by omega⟩
  | succ fuel ih =>
      unfold ReadLoop.wholeBlocks at heq
      by_cases hmore : nr + w.offset ≥ 4096
      · rw [if_pos hmore] at heq
        dsimp only at heq
        by_cases hleft : w.leaves c (4096 - w.offset) = 0
        · rw [if_neg (by simpa using hleft)] at heq
          obtain ⟨w₁, hw₁⟩ : ∃ w₁ : ReadLoop, w₁ =
              { w.transfer c (some (getNvmm e w.index, w.offset)) (4096 - w.offset) with
                copied := w.copied + (4096 - w.offset)
                index := w.index + (w.offset + (4096 - w.offset)) / 4096
                offset := (w.offset + (4096 - w.offset)) % 4096 } := ⟨_, rfl⟩
          have hindex : w₁.index = w.index + (w.offset + (4096 - w.offset)) / 4096 := by rw [hw₁]
          have hoffset : w₁.offset = (w.offset + (4096 - w.offset)) % 4096 := by rw [hw₁]
          have hstep : Traced f c w₁ := by
            exact h.advance (fun _ => hpage) (Nat.sub_le ..) hleft (by rw [hw₁]) (by rw [hw₁]) (by omega)
              fun hwhole => by omega
          have hturns : (nr - (4096 - w.offset) + w₁.offset) / 4096 ≤ fuel := by omega
          obtain ⟨hwent, hle, hfit⟩ := ih hstep ⟨hpage.1, by omega, hpage.2.2⟩ hturns (by rw [hw₁]; exact heq)
          exact ⟨hwent, by omega, hfit⟩
        · rw [if_pos hleft] at heq
          cases heq
          exact ⟨.out (h.tiled.transfer (Nat.sub_le ..)) (by decide), le_rfl, fun hnone => absurd hnone (by simp)⟩
      · rw [if_neg hmore] at heq
        cases heq
        exact ⟨.on h, le_rfl, fun _ => by omega⟩

/-- The tail block is not delegated. -/
theorem Traced.tailBlock {e : NovaFileWriteEntry} {nr : Nat} {exit : Option ReadExit} (h : Traced f c w)
    (hpage : c.pos / 4096 ≤ q ∧ q ≤ w.index ∧ f.tree.slot q ≠ none) (hnr : nr < 4096)
    (heq : w.tailBlock c e nr = (w', exit)) : Went f c w' exit := by
  unfold ReadLoop.tailBlock at heq
  dsimp only at heq
  by_cases hleft : w.leaves c nr = 0
  · rw [if_neg (by simpa using hleft), hleft] at heq
    cases heq
    exact .on (h.advance (fun _ => hpage) hnr.le hleft rfl rfl (Nat.le_add_right ..)
      fun hwhole => absurd hwhole (not_le.mpr hnr))
  · rw [if_pos hleft] at heq
    cases heq
    exact .out (h.tiled.transfer hnr.le) (by decide)

theorem Traced.extent {e : NovaFileWriteEntry} {len : Nat} {exit : Option ReadExit} (h : Traced f c w)
    (hslot : f.tree.slot w.index ≠ none) (heq : w.extent c len e = (w', exit)) : Went f c w' exit := by
  have hpage : c.pos / 4096 ≤ w.index ∧ w.index ≤ w.index ∧ f.tree.slot w.index ≠ none := ⟨h.start, le_rfl, hslot⟩
  unfold ReadLoop.extent at heq
  dsimp only at heq
  split at heq
  · rename_i w₁ exit₁ nr₁ hblocks
    cases heq
    exact (h.wholeBlocks hpage le_rfl hblocks).1
  · rename_i w₁ nr₁ hblocks
    obtain ⟨hwent, hle, hfit⟩ := h.wholeBlocks hpage le_rfl hblocks
    by_cases hnr : nr₁ ≠ 0
    · rw [if_pos hnr] at heq
      have hlt := hfit rfl
      exact (hwent.goesOn rfl).tailBlock ⟨h.start, hle, hslot⟩ (by omega) heq
    · rw [if_neg hnr] at heq
      cases heq
      exact hwent

theorem Traced.hole {len : Nat} {exit : Option ReadExit} (h : Traced f c w) (heq : w.hole c len = (w', exit)) :
    Went f c w' exit := by
  unfold ReadLoop.hole at heq
  dsimp only at heq
  obtain ⟨nr, hnr⟩ : ∃ nr, nr = min (4096 - w.offset) (len - w.copied) := ⟨_, rfl⟩
  rw [← hnr] at heq
  by_cases hleft : w.leaves c nr = 0
  · rw [if_neg (by simpa using hleft), hleft] at heq
    cases heq
    refine .on (h.advance (q := 0) (fun hsrc => by cases hsrc) (by omega) hleft rfl rfl (Nat.le_add_right ..) fun hwhole => ?_)
    show w.index < w.index + (w.offset + (nr - 0)) / 4096
    omega
  · rw [if_pos hleft] at heq
    cases heq
    exact .out (h.tiled.transfer (by omega)) (by decide)

theorem Traced.turn {len : Nat} {exit : Option ReadExit} (h : Traced f c w) (heq : w.turn f c len = (w', exit)) :
    Went f c w' exit := by
  unfold ReadLoop.turn at heq
  dsimp only at heq
  split at heq
  · cases heq
    exact .out h.tiled le_rfl
  · split at heq
    · exact h.hole heq
    · rename_i entry hslot
      split at heq
      · rename_i hcopy
        cases heq
        refine ⟨h.tiled, nofun, nofun, fun code hcode => ?_⟩
        cases hcode
        refine ⟨h, by decide, entry, hslot, fun hfinds => ?_⟩
        rw [hfinds.1] at hcopy
        cases hcopy
      · split at heq
        · rename_i hout
          cases heq
          refine ⟨h.tiled, nofun, nofun, fun code hcode => ?_⟩
          cases hcode
          refine ⟨h, by decide, entry, hslot, fun hfinds => ?_⟩
          obtain ⟨-, hlo, hhi⟩ := hfinds
          omega
        · exact h.extent (by simp [hslot]) heq

theorem Traced.run {len fuel : Nat} {exit : ReadExit} (h : Traced f c w) (heq : w.run f c len fuel = .ok (w', exit)) :
    Went f c w' (some exit) := by
  induction fuel generalizing w with
  | zero => cases heq
  | succ fuel ih =>
      unfold ReadLoop.run at heq
      split at heq
      · rename_i w₁ exit₁ hturn
        cases heq
        exact h.turn hturn
      · rename_i w₁ hturn
        have hwent := h.turn hturn
        split at heq
        · exact ih (hwent.goesOn rfl) heq
        · cases heq
          exact .out hwent.tiled le_rfl

/-- What a read comes to: what it counts was transferred, and where it does not get to its end it
fails. -/
structure ReadResult.Sound (f : FileTree) (c : ReadCall) (r : ReadResult) : Prop where
  tiled : Tiled r.copied r.transfers
  copied : 0 < r.ret → r.ret = r.copied
  fails : r.out = false → r.ret < 0
  unbroken : r.out = false → c.Unbroken f → ∀ t ∈ r.transfers, t.delegated = false

theorem readReturn_sound {exit : ReadExit} (h : Went f c w (some exit)) : (readReturn (w, exit)).Sound f c := by
  cases exit with
  | out error =>
      refine ⟨h.tiled, fun hpos => ?_, nofun, nofun⟩
      have herror := h.outs error rfl
      show (if w.copied ≠ 0 then (w.copied : Int) else error) = w.copied
      change 0 < (if w.copied ≠ 0 then (w.copied : Int) else error) at hpos
      split at hpos <;> omega
  | returns code =>
      obtain ⟨htraced, hcode, entry, hslot, hbad⟩ := h.returns code rfl
      refine ⟨h.tiled, fun hpos => absurd hpos (not_lt.mpr hcode.le), fun _ => hcode, fun _ hunbroken t ht => ?_⟩
      by_contra hdele
      obtain ⟨q, hlo, hhi, hmapped⟩ := htraced.behind t ht (by simpa using hdele)
      exact hmapped (((hunbroken w.index entry hslot htraced.start).resolve_left hbad) q hlo hhi)

theorem doDaxMappingRead_sound {r : ReadResult} (h : doDaxMappingRead f c = .ok r) : r.Sound f c := by
  have hstart : Traced f c ⟨c.pos / 4096, c.pos % 4096, 0, []⟩ := ⟨le_rfl, ⟨nofun, nofun⟩, nofun⟩
  have hout : ∀ error : Int, error ≤ 0 → (readOut ⟨c.pos / 4096, c.pos % 4096, 0, []⟩ error).Sound f c :=
    fun error herror => readReturn_sound (.out hstart.tiled herror)
  unfold doDaxMappingRead at h
  dsimp only at h
  generalize (if c.pos ≤ c.isize then min c.len (c.isize - c.pos) else c.len) = len at h
  split at h
  · cases h
    exact hout _ (by decide)
  · split at h
    · cases h
      exact hout 0 le_rfl
    · split at h
      · cases h
        exact hout 0 le_rfl
      · cases hrun : ReadLoop.run f c len ((c.isize - 1) / 4096 + 1 - c.pos / 4096 + 1)
          ⟨c.pos / 4096, c.pos % 4096, 0, []⟩ with
        | error e =>
            rw [hrun] at h
            cases h
        | ok r =>
            rw [hrun] at h
            cases h
            exact readReturn_sound (hstart.run hrun)

end

/-! ### Writes -/

section

variable {g : CopyConfig} {f : FileTree} {k : Copies} {v : NvmmWrite} {index offset pos count bytes blocknr ubuf len : Nat}
  {append tryDele : Bool}

/-- What is left for an agent is noticed. -/
def Copies.Noticed (k : Copies) : Prop := ∀ v ∈ k.writes, v.dele = true → k.dele = true

theorem Copies.Noticed.add (h : k.Noticed) : (k.add v).Noticed := by
  intro u hu hdele
  show (k.dele || v.dele) = true
  rcases List.mem_append.mp hu with hu | hu
  · rw [h u hu hdele, Bool.true_or]
  · rw [← List.mem_singleton.mp hu, hdele, Bool.or_true]

theorem Copies.Noticed.old (h : k.Noticed) : (k.old g f index offset blocknr len tryDele).Noticed := by
  unfold Copies.old
  split
  · exact h.add
  · exact h

theorem Copies.Noticed.headBlock (h : k.Noticed) : (k.headBlock g f pos count blocknr ubuf append tryDele).Noticed := by
  have hold : (if append then k else k.old g f (pos / 4096) 0 blocknr (pos % 4096) tryDele).Noticed := by
    split
    · exact h
    · exact h.old
  unfold Copies.headBlock
  dsimp only
  generalize (if append then k else k.old g f (pos / 4096) 0 blocknr (pos % 4096) tryDele) = k' at hold ⊢
  split
  · exact hold
  · exact hold.add

theorem Copies.Noticed.tailBlock (h : k.Noticed) : (k.tailBlock g f pos count blocknr ubuf append tryDele).Noticed := by
  unfold Copies.tailBlock
  dsimp only
  cases append with
  | true =>
      rw [if_pos rfl]
      split
      · exact h.add
      · exact h
  | false =>
      rw [if_neg Bool.false_ne_true]
      refine Copies.Noticed.old ?_
      split
      · exact h.add
      · exact h

theorem novaHandleHeadTailBlocks_noticed : (novaHandleHeadTailBlocks g f pos count blocknr ubuf append tryDele).Noticed := by
  have hstart : (⟨[], 0, 0, false, false, none⟩ : Copies).Noticed := nofun
  have hhead : (if pos % 4096 ≠ 0 then
      Copies.headBlock g f ⟨[], 0, 0, false, false, none⟩ pos count blocknr ubuf append tryDele
      else ⟨[], 0, 0, false, false, none⟩).Noticed := by
    split
    · exact hstart.headBlock
    · exact hstart
  unfold novaHandleHeadTailBlocks
  dsimp only
  generalize (if pos % 4096 ≠ 0 then
    Copies.headBlock g f ⟨[], 0, 0, false, false, none⟩ pos count blocknr ubuf append tryDele
    else ⟨[], 0, 0, false, false, none⟩) = k at hhead ⊢
  split
  · exact hhead
  · split
    · exact hhead.tailBlock
    · exact hhead

/-- Of the whole blocks, all are left for agents or none. -/
theorem Copies.wholeBlocks_noticed (h : ∀ v ∈ k.writes, v.dele = true → k.isDele = true) :
    ∀ v ∈ (k.wholeBlocks g bytes blocknr ubuf tryDele).writes, v.dele = true →
      (k.wholeBlocks g bytes blocknr ubuf tryDele).isDele = true := by
  intro v hv hdele
  unfold Copies.wholeBlocks at hv ⊢
  dsimp only at hv ⊢
  rcases List.mem_append.mp hv with hv | hv
  · rw [h v hv hdele, Bool.true_or]
  · refine Bool.or_eq_true_iff.mpr (Or.inr ?_)
    by_cases hstriped : g.striped = true
    · rw [if_pos hstriped] at hv ⊢
      obtain ⟨i, hi, rfl⟩ := List.mem_map.mp hv
      obtain ⟨u, hu⟩ := Option.ne_none_iff_exists'.mp (mt List.getLast?_eq_none_iff.mp (List.ne_nil_of_mem hv))
      rw [hu]
      obtain ⟨j, -, rfl⟩ := List.mem_map.mp (List.mem_of_getLast? hu)
      exact hdele
    · rw [if_neg hstriped] at hv ⊢
      rw [List.mem_singleton.mp hv] at hdele
      exact hdele

/-- **A turn that has left something for an agent says so.** -/
theorem turnCopies_noticed : ∀ v ∈ (turnCopies g f pos bytes blocknr ubuf append tryDele).writes, v.dele = true →
    (turnCopies g f pos bytes blocknr ubuf append tryDele).isDele = true := by
  unfold turnCopies
  dsimp only
  by_cases hpart : (pos % 4096 ≠ 0 || (pos + bytes) % 4096 ≠ 0) = true
  · rw [if_pos hpart]
    split
    · exact novaHandleHeadTailBlocks_noticed
    · exact Copies.wholeBlocks_noticed novaHandleHeadTailBlocks_noticed
  · rw [if_neg hpart]
    exact Copies.wholeBlocks_noticed nofun

end

section

variable {mode : WriteMode} {c : WriteCall} {g : CopyConfig} {w : WriteLoop} {s : CopyLoop} {t : WriteTurn}
  {ts : List WriteTurn} {k : Copies}

theorem WriteLoop.turnCopies_noticed (h : w.turnCopies mode c g s t = some k) :
    ∀ v ∈ k.writes, v.dele = true → k.isDele = true := by
  unfold WriteLoop.turnCopies at h
  split at h
  · cases h
    unfold WriteLoop.copies
    split <;> exact Parfs.turnCopies_noticed
  · cases h

theorem turnsCopies_noticed (hk : k ∈ turnsCopies mode c g w s ts) : ∀ v ∈ k.writes, v.dele = true → k.isDele = true := by
  induction ts generalizing w s with
  | nil => cases hk
  | cons t ts ih =>
      unfold turnsCopies at hk
      split at hk
      · cases hk
      · dsimp only at hk
        split at hk
        · exact WriteLoop.turnCopies_noticed (Option.mem_toList.mp hk)
        · rcases List.mem_append.mp hk with hk | hk
          · exact WriteLoop.turnCopies_noticed (Option.mem_toList.mp hk)
          · exact ih hk

/-- The flag stays. -/
theorem copyTurns_isDele (h : s.isDele = true ∨ ∃ k ∈ turnsCopies mode c g w s ts, k.isDele = true) :
    (copyTurns mode c g w s ts).2.isDele = true := by
  have hafter : ∀ {s : CopyLoop} {w : WriteLoop} {o : Option Copies},
      (s.isDele = true ∨ ∃ k ∈ o.toList, k.isDele = true) → (s.after w o).isDele = true := by
    intro s w o h
    unfold CopyLoop.after
    cases o with
    | none => exact h.resolve_right (by simp)
    | some k =>
        rcases h with h | ⟨k', hk', h⟩
        · exact Bool.or_eq_true_iff.mpr (Or.inl h)
        · rw [Option.mem_toList.mp hk'] at *
          exact Bool.or_eq_true_iff.mpr (Or.inr h)
  induction ts generalizing w s with
  | nil => exact h.resolve_right (by simp [turnsCopies])
  | cons t ts ih =>
      unfold copyTurns
      unfold turnsCopies at h
      by_cases hnum : w.numBlocks = 0
      · rw [if_pos hnum] at h ⊢
        exact h.resolve_right (by simp)
      · rw [if_neg hnum] at h ⊢
        dsimp only at h ⊢
        cases hturn : writeTurn mode c w (t.copied (w.turnCopies mode c g s t)) with
        | mk w' res =>
            rw [hturn] at h
            cases res with
            | error ret => exact hafter h
            | ok u =>
                refine ih ?_
                rcases h with h | ⟨k, hk, h⟩
                · exact Or.inl (hafter (Or.inl h))
                · rcases List.mem_append.mp hk with hk | hk
                  · exact Or.inl (hafter (Or.inr ⟨k, hk, h⟩))
                  · exact Or.inr ⟨k, hk, h⟩

end

/-! ### What the calls have to do -/

theorem novaCompleteDelegation_within : ∀ a ∈ novaCompleteDelegation, a.Within := by
  intro a ha
  obtain ⟨socket, -, rfl⟩ := List.mem_map.mp ha
  exact .await socket

section

variable {P : Int → Prop} {o : Nat → Prop} {todo rest : List DeleAction} {n : Int} {cfg : DeleConfig} {call : Nat}

/-- Waiting never hurts. -/
theorem settles_quiet (hquiet : ∀ a ∈ todo, ∃ i, a = .await i) (hrest : Settles P o rest) : Settles P o (todo ++ rest) := by
  induction todo generalizing o with
  | nil => exact hrest
  | cons a todo ih =>
      obtain ⟨i, rfl⟩ := hquiet a List.mem_cons_self
      exact ih (fun a ha => hquiet a (List.mem_cons_of_mem _ ha)) (hrest.anti fun _ hi => hi.1)

/-- A call that waits for all sockets at its end, or has sent nothing, or returns what does not matter. -/
theorem settles_call {waits : Bool} (hin : ∀ a ∈ todo, a.Within)
    (hquiet : waits = false → P n → ∀ a ∈ todo, ∃ i, a = .await i) :
    Settles P (fun _ => False) (todo ++ (if waits then novaCompleteDelegation else []) ++ [.ret n]) := by
  rw [List.append_assoc]
  cases waits with
  | true => exact settles_within hin nofun settles_complete
  | false =>
      rw [if_neg Bool.false_ne_true, List.nil_append]
      by_cases hP : P n
      · exact settles_quiet (hquiet rfl hP) ⟨fun _ _ => id, rfl⟩
      · exact settles_within hin nofun ⟨fun hn => absurd hn hP, rfl⟩

theorem mem_call {waits : Bool} {r : DeleRequest}
    (h : .send r ∈ todo ++ (if waits then novaCompleteDelegation else []) ++ [.ret n]) : .send r ∈ todo := by
  rcases List.mem_append.mp h with h | h
  · rcases List.mem_append.mp h with h | h
    · exact h
    · split at h
      · obtain ⟨socket, -, hsend⟩ := List.mem_map.mp h
        cases hsend
      · cases h
  · cases List.mem_singleton.mp h

/-- A read that fails inside its loop either does not matter or has nothing of its own on its way. -/
theorem DeleOp.waits_read {f : FileTree} {c : ReadCall} {buf : Nat} (hsocket : ∀ b, cfg.socket b < novaMaxSocket)
    (hP : ∀ n, P n → 0 < n ∨ c.Unbroken f) : (DeleOp.read buf f c).Waits P cfg call := by
  have hsent : ∀ (r : ReadResult), ∀ a ∈ (r.transfers.filter fun t => t.delegated && t.left = 0).map
      fun t => DeleAction.send (t.request cfg call buf),
      ∃ t ∈ r.transfers, t.delegated = true ∧ a = .send (t.request cfg call buf) := by
    intro r a ha
    obtain ⟨t, ht, rfl⟩ := List.mem_map.mp ha
    obtain ⟨hmem, hdele⟩ := List.mem_filter.mp ht
    exact ⟨t, hmem, (Bool.and_eq_true_iff.mp hdele).1, rfl⟩
  cases hread : doDaxMappingRead f c with
  | error e =>
      have hnil : (DeleOp.read buf f c).actions cfg call = [] := by
        simp only [DeleOp.actions, hread]
      exact ⟨by rw [hnil]; nofun, by rw [hnil]; trivial⟩
  | ok r =>
      have hsound := doDaxMappingRead_sound hread
      have hactions : (DeleOp.read buf f c).actions cfg call = r.actions cfg call buf := by
        simp only [DeleOp.actions, hread]
      refine ⟨fun r' hr' => ?_, ?_⟩
      · rw [hactions] at hr'
        obtain ⟨t, -, -, ht⟩ := hsent r _ (mem_call hr')
        cases ht
        rfl
      · rw [hactions]
        refine settles_call (fun a ha => ?_) fun hwaits hPret a ha => ?_
        · obtain ⟨t, -, -, rfl⟩ := hsent r a ha
          exact .send _ (hsocket _)
        · obtain ⟨t, ht, hdele, rfl⟩ := hsent r a ha
          have hany : r.transfers.any Transfer.delegated = true := List.any_eq_true.mpr ⟨t, ht, hdele⟩
          have hout : r.out = false := by simpa [hany] using hwaits
          rcases hP r.ret hPret with hpos | hunbroken
          · exact absurd (hsound.fails hout) (not_lt.mpr hpos.le)
          · rw [hsound.unbroken hout hunbroken t ht] at hdele
            cases hdele

/-- A write always waits. -/
theorem DeleOp.waits_write {ubuf : Nat} {mode : WriteMode} {f : FileTree} {c : WriteCall} {g : CopyConfig}
    {early : Option Errno} {ts : List WriteTurn} (hsocket : ∀ b, cfg.socket b < novaMaxSocket) :
    (DeleOp.write ubuf mode f c g early ts).Waits P cfg call := by
  cases early with
  | some e => exact ⟨fun r hr => (by cases List.mem_singleton.mp hr), fun _ _ => id, rfl⟩
  | none =>
      have hturns : ∀ a ∈ (turnsCopies mode c g (c.start f) ⟨[], false, false⟩ ts).flatMap (Copies.actions cfg call mode g ubuf),
          (∃ i, a = .await i) ∨ ∃ k ∈ turnsCopies mode c g (c.start f) ⟨[], false, false⟩ ts, ∃ v ∈ k.writes,
            v.dele = true ∧ a = .send (v.request cfg call g ubuf) := by
        intro a ha
        obtain ⟨k, hk, ha⟩ := List.mem_flatMap.mp ha
        rcases List.mem_append.mp ha with ha | ha
        · obtain ⟨v, hv, rfl⟩ := List.mem_map.mp ha
          obtain ⟨hv, hdele⟩ := List.mem_filter.mp hv
          exact Or.inr ⟨k, hk, v, hv, hdele, rfl⟩
        · split at ha
          · obtain ⟨i, -, rfl⟩ := List.mem_map.mp ha
            exact Or.inl ⟨i, rfl⟩
          · cases ha
      refine ⟨fun r hr => ?_, settles_call (fun a ha => ?_) fun hwaits _ a ha => ?_⟩
      · rcases hturns _ (mem_call hr) with ⟨i, hi⟩ | ⟨k, -, v, -, -, hv⟩
        · cases hi
        · cases hv
          rfl
      · rcases hturns a ha with ⟨i, rfl⟩ | ⟨k, -, v, -, -, rfl⟩
        · exact .await i
        · exact .send _ (hsocket _)
      · refine (hturns a ha).resolve_right ?_
        rintro ⟨k, hk, v, hv, hdele, -⟩
        rw [copyTurns_isDele (Or.inr ⟨k, hk, turnsCopies_noticed hk v hv hdele⟩)] at hwaits
        cases hwaits

end

/-! ### Every run -/

/-- A read that is started does not break off after it may have delegated something. -/
def DeleAct.Unbroken : DeleAct → Prop
  | .start _ (.read _ f c) => c.Unbroken f
  | _ => True

section

variable {cfg : DeleConfig} {s s' : DeleState} {x : Caller} {call : Nat} {n : Int}

theorem deleInv_of_unbroken (hsocket : ∀ b, cfg.socket b < novaMaxSocket)
    (hrun : Runs (Guarded (fun _ a => a.Unbroken) (DeleStep cfg)) .init s) : DeleInv (fun _ => True) cfg s := by
  refine hrun.invariant (fun s a s' hinv hstep => hinv.step ?_ hstep.2) .init
  rintro call op rfl
  cases op with
  | read buf f c => exact DeleOp.waits_read hsocket fun _ _ => Or.inr hstep.1
  | write ubuf mode f c g early ts => exact DeleOp.waits_write hsocket

/-- **No call returns with requests on their way**, in any order of the steps of callers and agents,
while no read breaks off. -/
theorem delegation_returns_settled (hsocket : ∀ b, cfg.socket b < novaMaxSocket)
    (hrun : Runs (Guarded (fun _ a => a.Unbroken) (DeleStep cfg)) .init s) (hx : s.calls call = some x)
    (hret : x.returned = some n) :
    (∀ r ∈ s.pool.left, r.call ≠ call) ∧ (x.issued : Multiset DeleRequest) =
      (s.pool.done.map Prod.fst : Multiset DeleRequest).filter fun r => r.call = call :=
  (deleInv_of_unbroken hsocket hrun).returned hx hret trivial

end

/-! ### Runs that are told -/

def deleRun (cfg : DeleConfig) (s : DeleState) (as : List DeleAct) : Option DeleState := as.foldlM (deleStep cfg) s

theorem runs_of_deleRun {cfg : DeleConfig} {guard : DeleState → DeleAct → Prop} {s s' : DeleState} {as : List DeleAct}
    (hguard : ∀ s, ∀ a ∈ as, guard s a) (h : deleRun cfg s as = some s') : Runs (Guarded guard (DeleStep cfg)) s s' := by
  induction as generalizing s with
  | nil =>
      cases h
      exact Runs.refl _
  | cons a as ih =>
      obtain ⟨s₁, hstep, hrest⟩ := Option.bind_eq_some_iff.mp h
      exact (Runs.single ⟨hguard s a List.mem_cons_self, hstep⟩).trans
        (ih (fun s a ha => hguard s a (List.mem_cons_of_mem _ ha)) hrest)

/-- What is seen of a call in the end. -/
structure DeleView where
  returned : Option Int
  issued : List DeleRequest
  waiting : List DeleRequest
  done : List (DeleRequest × List AgentMove)
  deriving DecidableEq

def DeleState.view (s : DeleState) (call : Nat) : Option DeleView :=
  (s.calls call).map fun x => ⟨x.returned, x.issued, s.pool.waiting.map Prod.snd, s.pool.done⟩

theorem exists_of_view {cfg : DeleConfig} {as : List DeleAct} {call : Nat} {v : DeleView}
    (h : ((deleRun cfg .init as).bind fun s => s.view call) = some v) :
    ∃ s x, deleRun cfg .init as = some s ∧ s.calls call = some x ∧ x.returned = v.returned ∧ x.issued = v.issued ∧
      s.pool.waiting.map Prod.snd = v.waiting ∧ s.pool.done = v.done := by
  obtain ⟨s, hs, hview⟩ := Option.bind_eq_some_iff.mp h
  obtain ⟨x, hx, rfl⟩ := Option.map_eq_some_iff.mp hview
  exact ⟨s, x, hs, hx, rfl, rfl, rfl, rfl⟩

/-- One socket with one ring, and no checksums. -/
def oneRing : DeleConfig := ⟨fun _ => 0, 1, false⟩

theorem oneRing_socket (b : Nat) : oneRing.socket b < novaMaxSocket := Nat.succ_pos 7

/-- A page table in which every page is present. -/
def allPresent : AgentEnv := ⟨fun p => some (p + 1), fun _ => 0⟩

/-- The first page of a file is read. -/
def readPage : ReadCall := ⟨4096, 0, 4096, true, fun _ => true, fun _ => 0⟩

/-- Its request, to the buffer at 8192. -/
def pageRequest : DeleRequest := ⟨.read, false, false, 8192, 40960, 4096, 0, 0⟩

/-- The request is sent, served and waited for. -/
def pageRead (env : AgentEnv) : List DeleAct :=
  [.start 0 (.read 8192 threePages.file readPage), .goOn 0 0, .recv 0 0, .serve 0 0 env] ++ List.replicate 9 (.goOn 0 0)

theorem readPage_unbroken : readPage.Unbroken threePages.file := by
  intro p entry hslot _
  rw [threePages_slot] at hslot
  split at hslot
  · cases hslot
    exact Or.inl ⟨rfl, Nat.zero_le _, by assumption⟩
  · cases hslot

theorem pageRead_unbroken (env : AgentEnv) : ∀ a ∈ pageRead env, a.Unbroken := by
  intro a ha
  simp only [pageRead, List.mem_append, List.mem_cons, List.not_mem_nil, or_false, List.mem_replicate] at ha
  rcases ha with (rfl | rfl | rfl | rfl) | ⟨-, rfl⟩
  · exact readPage_unbroken
  · trivial
  · trivial
  · trivial
  · trivial

/-- So the request of such a read is done. -/
theorem delegation_returns_settled_pageRead :
    ∃ (s : DeleState) (x : Caller), s.calls 0 = some x ∧ x.returned = some 4096 ∧ (∀ r ∈ s.pool.left, r.call ≠ 0) ∧
      (x.issued : Multiset DeleRequest) =
        (s.pool.done.map Prod.fst : Multiset DeleRequest).filter fun r => r.call = 0 := by
  have hview : ((deleRun oneRing .init (pageRead allPresent)).bind fun s => s.view 0) =
      some ⟨some 4096, [pageRequest], [], [(pageRequest, [⟨12288, some 40960, 4096⟩])]⟩ := by decide +kernel
  obtain ⟨s, x, hs, hx, hret, -⟩ := exists_of_view hview
  exact ⟨s, x, hx, hret, delegation_returns_settled oneRing_socket
    (runs_of_deleRun (fun _ => pageRead_unbroken allPresent) hs) hx hret⟩

/-- Two pages of an entry each. -/
def pageByPage : FileTree :=
  ((newFile.apply (.append 64 (writeEntry 0 1 10 1) fun _ => true)).apply
    (.append 128 (writeEntry 1 1 20 1) fun _ => true)).file

/-- The entry of the second page cannot be had: the read fails and leaves the request of the first
page behind. -/
theorem delegation_returns_unsettled :
    ∃ s x, Runs (DeleStep oneRing) .init s ∧ s.calls 0 = some x ∧ x.returned = some (-Errno.eio.code) ∧
      ∃ r ∈ x.issued, r.call = 0 ∧ r ∈ s.pool.left ∧ s.pool.done = [] := by
  have hview : ((deleRun oneRing .init
      [.start 0 (.read 8192 pageByPage ⟨8192, 0, 8192, true, fun entry => entry ≠ 128, fun _ => 0⟩), .goOn 0 0, .goOn 0 0]).bind
        fun s => s.view 0) = some ⟨some (-Errno.eio.code), [pageRequest], [pageRequest], []⟩ := by decide +kernel
  obtain ⟨s, x, hs, hx, hret, hissued, hwaiting, hdone⟩ := exists_of_view hview
  have hrun : Runs (Guarded (fun _ _ => True) (DeleStep oneRing)) .init s := runs_of_deleRun (fun _ _ _ => trivial) hs
  refine ⟨s, x, hrun.map fun s a t h => ⟨a, h.2⟩, hx, hret, pageRequest, ?_, rfl, ?_, hdone⟩
  · rw [hissued]
    exact List.mem_singleton_self _
  · refine Multiset.mem_add.mpr (Or.inl ?_)
    rw [hwaiting]
    exact List.mem_singleton_self _

end Parfs
