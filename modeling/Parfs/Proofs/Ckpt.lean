/-
What the checkpoint table answers.

A call for a new inode advances the tail on the device and leaves the one in the header, and
the header's tail is where the next new entry goes.  So all entries share the place of the first
one: every inode of the table has the id of the last call, whichever inode that was for, and a
restored table has one inode in it.
-/
import Parfs.Ckpt
import Parfs.Proofs.LogMirror

namespace Parfs

open Lib ByteMem

/-! ### The purpose of the table -/

/-- No id: `nova_get_ckpt_id` for an inode that is not in the table. -/
def noCkptId : UInt64 := 0xFFFFFFFFFFFFFFFF

theorem noCkptId_toNat : noCkptId.toNat = 2 ^ 64 - 1 := rfl

/-- The id of the last call for an inode. -/
def lastCkptId (calls : List NovaCkptEntry) : UInt64 → UInt64 :=
  calls.foldl (fun ids call => Function.update ids call.ino call.latestTransId) fun _ => noCkptId

/-- The calls, one after the other. -/
def writeCkptEntries (env : LogEnv) (calls : List NovaCkptEntry) (ckpt : NovaCkpt) : Except Fault NovaCkpt :=
  calls.foldlM (novaWriteCkptEntry env) ckpt

/-- After the calls the table answers with the last id, and a restored table answers like the
one it is restored from. -/
def CkptExactAfter (env : LogEnv) (ckpt₀ : NovaCkpt) (calls : List NovaCkptEntry) : Prop :=
  ∃ ckpt, writeCkptEntries env calls ckpt₀ = .ok ckpt ∧
    (∀ ino, novaGetCkptId ckpt ino = (lastCkptId calls ino).toNat) ∧
    ∃ restored, (∃ steps, ∀ fuel ≥ steps, novaCkptRestore fuel ckpt = .ok restored) ∧
      ∀ ino, novaGetCkptId restored ino = novaGetCkptId ckpt ino

/-- The same after each of the calls. -/
def CkptExact (env : LogEnv) (ckpt₀ : NovaCkpt) (calls : List NovaCkptEntry) : Prop :=
  ∀ done, done <+: calls → CkptExactAfter env ckpt₀ done

/-- All calls are for one inode. -/
def OneInode (calls : List NovaCkptEntry) : Prop := ∀ c ∈ calls, ∀ d ∈ calls, c.ino = d.ino

/-- From the last call before a second inode on, no call brings an id. -/
def OneInodeHasIds (calls : List NovaCkptEntry) : Prop :=
  ∀ done c d, done ++ [c, d] <+: calls → ¬ OneInode (done ++ [c, d]) →
    c.latestTransId = noCkptId ∧ d.latestTransId = noCkptId

section

variable {calls : List NovaCkptEntry} {call : NovaCkptEntry}

@[simp] theorem lastCkptId_append (ino : UInt64) : lastCkptId (calls ++ [call]) ino =
    if ino = call.ino then call.latestTransId else lastCkptId calls ino := by
  unfold lastCkptId
  rw [List.foldl_append, List.foldl_cons, List.foldl_nil, Function.update_apply]

theorem lastCkptId_of_notMem {ino : UInt64} (h : ∀ c ∈ calls, c.ino ≠ ino) : lastCkptId calls ino = noCkptId := by
  induction calls using List.reverseRecOn with
  | nil => rfl
  | append_singleton calls call ih =>
      rw [lastCkptId_append, if_neg fun heq => h call (by simp) heq.symm]
      exact ih fun c hc => h c (by simp [hc])

/-- Where all calls are for one inode, its id is that of the last of them. -/
theorem lastCkptId_one (h : OneInode (calls ++ [call])) (ino : UInt64) : lastCkptId (calls ++ [call]) ino =
    if ino = call.ino then call.latestTransId else noCkptId := by
  rw [lastCkptId_append]
  by_cases hino : ino = call.ino
  · rw [if_pos hino, if_pos hino]
  · rw [if_neg hino, if_neg hino]
    refine lastCkptId_of_notMem fun c hc heq => hino ?_
    rw [← heq]
    exact h c (by simp [hc]) call (by simp)

theorem OneInode.of_append {calls' : List NovaCkptEntry} (h : OneInode (calls ++ calls')) : OneInode calls :=
  fun c hc d hd => h c (by simp [hc]) d (by simp [hd])

end

/-! ### The first entry -/

section

variable {env : LogEnv}

theorem isLastEntry_page {p : Nat} (hp : p % 4096 = 0) : isLastEntry p novaCkptEntrySize = false := by
  unfold isLastEntry entryLoc logBlockTail novaCkptEntrySize
  simp [hp]

theorem novaGetAppendHead_page (env : LogEnv) {s : LogState} (hpage : IsPage s.sih.logTail) :
    novaGetAppendHead env s s.sih.logTail novaCkptEntrySize .main = .ok (s, s.sih.logTail) := by
  unfold novaGetAppendHead appendHeadInPage
  simp [isLastEntry_page hpage.1, hpage.2.1]

/-! ### Where the entries are -/

/-- After a first call: one place for all. -/
structure CkptShared (ckpt : NovaCkpt) (calls : List NovaCkptEntry) (p : Nat) : Prop where
  page : IsPage p
  head : ckpt.log.sih.logHead = p
  tail : ckpt.log.sih.logTail = p
  piTail : ckpt.piLogTail = p + novaCkptEntrySize
  tree : ∀ ino : UInt64, ckpt.tree.slot ino.toNat = if ∃ c ∈ calls, c.ino = ino then some p else none
  /-- the inode the entry is of, as far as its number goes -/
  owner : ∃ c ∈ calls, ckpt.log.mem.word p 8 = c.ino.toNat

variable {m : ByteMem} {gs : Grants} {calls : List NovaCkptEntry} {ckpt : NovaCkpt} {p : Nat}

theorem word_toNat {a : Nat} (v : UInt64) : (m.setWord a 8 v.toNat).word a 8 = v.toNat :=
  word_setWord v.toNat_lt

/-- The entry just stored. -/
theorem words_of_entry (call : NovaCkptEntry) :
    let m' := (m.setWord p 8 call.ino.toNat).setWord (p + 8) 8 call.latestTransId.toNat
    m'.word p 8 = call.ino.toNat ∧ m'.word (p + 8) 8 = call.latestTransId.toNat := by
  refine ⟨?_, word_toNat _⟩
  rw [word_setWord_of_disjoint (by omega)]
  exact word_toNat _

theorem slot_set_append {call : NovaCkptEntry} {tree : Radix Nat}
    (htree : ∀ ino : UInt64, tree.slot ino.toNat = if ∃ c ∈ calls, c.ino = ino then some p else none)
    (ino : UInt64) : (tree.set call.ino.toNat p).slot ino.toNat =
      if ∃ c ∈ calls ++ [call], c.ino = ino then some p else none := by
  by_cases hino : ino = call.ino
  · rw [hino, Radix.set_slot_self, if_pos ⟨call, by simp, rfl⟩]
  · have hne : ino.toNat ≠ call.ino.toNat := fun h => hino (UInt64.toNat_inj.mp h)
    rw [Radix.set_slot_of_ne hne, htree]
    have hiff : (∃ c ∈ calls ++ [call], c.ino = ino) ↔ ∃ c ∈ calls, c.ino = ino := by
      simp only [List.mem_append, List.mem_singleton, or_and_right, exists_or, exists_eq_left]
      exact or_iff_left fun h => hino h.symm
    simp only [hiff]

/-- **A call, in a table that has started.** -/
theorem novaWriteCkptEntry_shared (env : LogEnv) (h : CkptShared ckpt calls p) (call : NovaCkptEntry) :
    ∃ ckpt', novaWriteCkptEntry env ckpt call = .ok ckpt' ∧ CkptShared ckpt' (calls ++ [call]) p ∧
      ckpt'.log.mem.word (p + 8) 8 = call.latestTransId.toNat := by
  have hslot := h.tree call.ino
  unfold novaWriteCkptEntry
  by_cases hmem : ∃ c ∈ calls, c.ino = call.ino
  · -- in place
    rw [if_pos hmem] at hslot
    rw [hslot]
    refine ⟨_, rfl, ⟨h.page, h.head, h.tail, h.piTail, ?_, ?_⟩, word_toNat _⟩
    · intro ino
      have hiff : (∃ c ∈ calls ++ [call], c.ino = ino) ↔ ∃ c ∈ calls, c.ino = ino := by
        simp only [List.mem_append, List.mem_singleton, or_and_right, exists_or, exists_eq_left]
        exact or_iff_left_of_imp fun heq => heq ▸ hmem
      simp only [hiff]
      exact h.tree ino
    · obtain ⟨c, hc, howner⟩ := h.owner
      refine ⟨c, by simp [hc], ?_⟩
      rw [← howner]
      exact word_setWord_of_disjoint (by omega)
  · -- appended, which takes the header's tail
    rw [if_neg hmem] at hslot
    rw [hslot]
    have hhead := novaGetAppendHead_page env (h.tail.symm ▸ h.page)
    dsimp only
    rw [hhead, h.tail]
    obtain ⟨hino, hid⟩ := words_of_entry (m := ckpt.log.mem) (p := p) call
    exact ⟨_, rfl, ⟨h.page, h.head, h.tail, rfl, slot_set_append h.tree, call, by simp, hino⟩, hid⟩

/-- The first call. -/
theorem novaWriteCkptEntry_first (hfresh : Fresh [] gs) (hgranted : FirstPageGranted env gs)
    (hfuel : (grantPages gs).length < env.fuel) (call : NovaCkptEntry) :
    ∃ ckpt p, novaWriteCkptEntry env (novaCkptInit m gs) call = .ok ckpt ∧ CkptShared ckpt [call] p ∧
      ckpt.log.mem.word (p + 8) 8 = call.latestTransId.toNat := by
  obtain ⟨s, p, hrun, hpage, hhead, htail⟩ := novaGetAppendHead_first (m := m) hfresh hgranted hfuel
    (show novaCkptEntrySize ≤ 4064 by decide)
  obtain ⟨hino, hid⟩ := words_of_entry (m := s.mem) (p := p) call
  have hrun' : novaWriteCkptEntry env (novaCkptInit m gs) call =
      .ok ⟨{ s with mem := (s.mem.setWord p 8 call.ino.toNat).setWord (p + 8) 8 call.latestTransId.toNat },
        p + novaCkptEntrySize, (Radix.empty Nat).set call.ino.toNat p⟩ := by
    show (novaGetAppendHead env ⟨m, ⟨0, 0, 0, 0, 0⟩, gs⟩ 0 novaCkptEntrySize .main).map _ = _
    rw [hrun]
    rfl
  refine ⟨_, p, hrun', ⟨hpage, hhead, htail, rfl, ?_, call, by simp, hino⟩, hid⟩
  have hempty : ∀ ino : UInt64, (Radix.empty Nat).slot ino.toNat =
      if ∃ c ∈ ([] : List NovaCkptEntry), c.ino = ino then some p else none := by simp [Radix.empty]
  exact slot_set_append hempty

/-- **Any number of calls.** -/
theorem writeCkptEntries_shared (hfresh : Fresh [] gs) (hgranted : FirstPageGranted env gs)
    (hfuel : (grantPages gs).length < env.fuel) (calls : List NovaCkptEntry) (call : NovaCkptEntry) :
    ∃ ckpt p, writeCkptEntries env (calls ++ [call]) (novaCkptInit m gs) = .ok ckpt ∧
      CkptShared ckpt (calls ++ [call]) p ∧ ckpt.log.mem.word (p + 8) 8 = call.latestTransId.toNat := by
  induction calls using List.reverseRecOn generalizing call with
  | nil =>
      obtain ⟨ckpt, p, hrun, h⟩ := novaWriteCkptEntry_first (m := m) hfresh hgranted hfuel call
      refine ⟨ckpt, p, ?_, h⟩
      simp [writeCkptEntries, hrun]
  | append_singleton calls before ih =>
      obtain ⟨ckpt, p, hrun, h, -⟩ := ih before
      obtain ⟨ckpt', hrun', h'⟩ := novaWriteCkptEntry_shared env h call
      refine ⟨ckpt', p, ?_, h'⟩
      unfold writeCkptEntries at hrun ⊢
      rw [List.foldlM_append, hrun]
      show ((novaWriteCkptEntry env ckpt call).bind fun ckpt => .ok ckpt) = _
      rw [hrun']
      rfl

/-! ### What the table answers -/

/-- An inode of the table has the id that is stored. -/
theorem CkptShared.get (h : CkptShared ckpt calls p) (ino : UInt64) : novaGetCkptId ckpt ino =
    if ∃ c ∈ calls, c.ino = ino then ckpt.log.mem.word (p + 8) 8 else noCkptId.toNat := by
  unfold novaGetCkptId
  rw [h.tree]
  by_cases hmem : ∃ c ∈ calls, c.ino = ino
  · rw [if_pos hmem, if_pos hmem]
  · rw [if_neg hmem, if_neg hmem, noCkptId_toNat]

/-- A restored table has the one inode. -/
theorem CkptShared.restore (h : CkptShared ckpt calls p) : ∃ restored owner,
    (∀ fuel, novaCkptRestore (fuel + 2) ckpt = .ok restored) ∧ owner ∈ calls ∧ ∀ ino, novaGetCkptId restored ino =
      if ino = owner.ino then ckpt.log.mem.word (p + 8) 8 else noCkptId.toNat := by
  obtain ⟨owner, hmem, howner⟩ := h.owner
  have hsize : novaCkptEntrySize ≠ 0 := by decide
  have hrun : ∀ fuel, novaCkptRestore (fuel + 2) ckpt = .ok
      { log := { ckpt.log with sih := ⟨p, p + novaCkptEntrySize, 0, 0, 0⟩ }
        piLogTail := p + novaCkptEntrySize
        tree := (Radix.empty Nat).set owner.ino.toNat p } := by
    intro fuel
    have hempty : ((Radix.empty Nat).slot owner.ino.toNat).isSome = false := rfl
    unfold novaCkptRestore
    simp [h.head, h.piTail, ckptRestoreLoop, hsize, isLastEntry_page h.page.1, h.page.2.1, howner, hempty,
      Except.map]
  refine ⟨_, owner, hrun, hmem, ?_⟩
  intro ino
  unfold novaGetCkptId
  dsimp only
  by_cases hino : ino = owner.ino
  · rw [hino, Radix.set_slot_self, if_pos rfl]
  · rw [Radix.set_slot_of_ne fun heq => hino (UInt64.toNat_inj.mp heq), if_neg hino, noCkptId_toNat]
    rfl

/-- **After a last call, when the answers are right**: the live ones and those of a restored
table. -/
theorem CkptShared.answers (h : CkptShared ckpt calls p) {id : UInt64}
    (hid : ckpt.log.mem.word (p + 8) 8 = id.toNat) {owner : NovaCkptEntry} (hmem : owner ∈ calls)
    {restored : NovaCkpt} (hrestored : ∀ ino, novaGetCkptId restored ino =
      if ino = owner.ino then ckpt.log.mem.word (p + 8) 8 else noCkptId.toNat) :
    (∀ ino, novaGetCkptId restored ino = novaGetCkptId ckpt ino) ↔ OneInode calls ∨ id = noCkptId := by
  simp only [hrestored, h.get, hid]
  constructor
  · intro hsame
    by_cases hone : OneInode calls
    · exact Or.inl hone
    · right
      unfold OneInode at hone
      push Not at hone
      obtain ⟨c, hc, d, hd, hne⟩ := hone
      -- one of the two is not the entry's owner
      obtain ⟨e, he, hother⟩ : ∃ e ∈ calls, e.ino ≠ owner.ino := by
        by_cases hcown : c.ino = owner.ino
        · exact ⟨d, hd, fun heq => hne (hcown.trans heq.symm)⟩
        · exact ⟨c, hc, hcown⟩
      have := hsame e.ino
      rw [if_neg hother, if_pos ⟨e, he, rfl⟩] at this
      exact (UInt64.toNat_inj.mp this).symm
  · intro hok ino
    by_cases hino : ino = owner.ino
    · rw [if_pos hino, if_pos ⟨owner, hmem, hino.symm⟩]
    · rw [if_neg hino]
      by_cases hin : ∃ c ∈ calls, c.ino = ino
      · rw [if_pos hin]
        obtain ⟨c, hc, rfl⟩ := hin
        rcases hok with hone | rfl
        · exact absurd (hone c hc owner hmem) hino
        · rfl
      · rw [if_neg hin]

theorem ckptExactAfter_nil : CkptExactAfter env (novaCkptInit m gs) [] := by
  refine ⟨novaCkptInit m gs, rfl, fun _ => rfl, novaCkptInit m gs, ⟨1, ?_⟩, fun _ => rfl⟩
  intro fuel hfuel
  obtain ⟨fuel, rfl⟩ := Nat.exists_eq_add_of_le hfuel
  rw [Nat.add_comm]
  rfl

/-- After a last call, when the answers are right, by what the calls were. -/
theorem ckptExactAfter_append (hfresh : Fresh [] gs) (hgranted : FirstPageGranted env gs)
    (hfuel : (grantPages gs).length < env.fuel) (calls : List NovaCkptEntry) (call : NovaCkptEntry) :
    CkptExactAfter env (novaCkptInit m gs) (calls ++ [call]) ↔
      (∀ ino, lastCkptId (calls ++ [call]) ino =
        if ∃ c ∈ calls ++ [call], c.ino = ino then call.latestTransId else noCkptId) ∧
      (OneInode (calls ++ [call]) ∨ call.latestTransId = noCkptId) := by
  obtain ⟨ckpt, p, hrun, h, hid⟩ := writeCkptEntries_shared (m := m) hfresh hgranted hfuel calls call
  obtain ⟨restored, owner, hrestore, hmem, hrestored⟩ := h.restore
  have hlive : ∀ ino, novaGetCkptId ckpt ino = (if ∃ c ∈ calls ++ [call], c.ino = ino then
      call.latestTransId else noCkptId).toNat := by
    intro ino
    rw [h.get, hid]
    exact (apply_ite UInt64.toNat _ _ _).symm
  have hiff := h.answers hid hmem hrestored
  unfold CkptExactAfter
  rw [← hiff]
  constructor
  · rintro ⟨ckpt', hrun', hget, restored', ⟨steps, hrestore'⟩, hsame⟩
    have hckpt : ckpt' = ckpt := by
      rw [hrun] at hrun'
      exact (Except.ok.inj hrun').symm
    subst hckpt
    have heq : restored' = restored := by
      have h1 := hrestore' (steps + 2) (by omega)
      rw [hrestore] at h1
      exact (Except.ok.inj h1).symm
    subst heq
    refine ⟨fun ino => ?_, hsame⟩
    exact UInt64.toNat_inj.mp ((hget ino).symm.trans (hlive ino))
  · rintro ⟨hget, hsame⟩
    refine ⟨ckpt, hrun, fun ino => by rw [hlive, hget], restored, ⟨2, ?_⟩, hsame⟩
    intro fuel hge
    obtain ⟨fuel, rfl⟩ := Nat.exists_eq_add_of_le hge
    rw [Nat.add_comm]
    exact hrestore fuel

/-- Once there are two inodes, no inode has an id. -/
theorem OneInodeHasIds.lastCkptId (h : OneInodeHasIds calls) :
    ∀ done, done <+: calls → ¬ OneInode done → ∀ ino, lastCkptId done ino = noCkptId := by
  intro done
  induction done using List.reverseRecOn with
  | nil => exact fun _ hone => absurd (by simp [OneInode]) hone
  | append_singleton done d ih =>
      intro hpre hone ino
      have hbefore : done <+: calls := (List.prefix_append done [d]).trans hpre
      cases done using List.reverseRecOn with
      | nil => exact absurd (by simp [OneInode]) hone
      | append_singleton done c =>
          have hpre' : done ++ [c, d] <+: calls := by simpa using hpre
          have hone' : ¬ OneInode (done ++ [c, d]) := by simpa using hone
          obtain ⟨hc, hd⟩ := h done c d hpre' hone'
          rw [lastCkptId_append, hd]
          by_cases hino : ino = d.ino
          · rw [if_pos hino]
          · rw [if_neg hino]
            by_cases hfirst : OneInode (done ++ [c])
            · rw [lastCkptId_one hfirst, hc, ite_self]
            · exact ih hbefore hfirst ino

end

/-! ### When the table is right -/

/--
**The checkpoint table and its restored copy are right as long as there is one inode.**  A
second inode takes the place of the first, so from then on both have the last call's id, and
that is right only where there are no ids to have.
-/
theorem novaCkpt_exact_iff (env : LogEnv) (m : ByteMem) {gs : Grants} (hfresh : Fresh [] gs)
    (hgranted : FirstPageGranted env gs) (hfuel : (grantPages gs).length < env.fuel)
    (calls : List NovaCkptEntry) : CkptExact env (novaCkptInit m gs) calls ↔ OneInodeHasIds calls := by
  constructor
  · intro hexact done c d hpre hone
    have hpre' : (done ++ [c]) ++ [d] <+: calls := by simpa using hpre
    have hone' : ¬ OneInode ((done ++ [c]) ++ [d]) := by simpa using hone
    obtain ⟨hlast, hid⟩ := (ckptExactAfter_append hfresh hgranted hfuel (done ++ [c]) d).mp (hexact _ hpre')
    have hd := hid.resolve_left hone'
    refine ⟨?_, hd⟩
    by_cases hfirst : OneInode (done ++ [c])
    · -- `d` is for the second inode
      have hne : c.ino ≠ d.ino := by
        intro heq
        refine hone' fun a ha b hb => ?_
        have hsame : ∀ e ∈ (done ++ [c]) ++ [d], e.ino = c.ino := by
          intro e he
          rcases List.mem_append.mp he with he | he
          · exact hfirst e he c (by simp)
          · rw [List.mem_singleton.mp he, heq]
        rw [hsame a ha, hsame b hb]
      have hc := hlast c.ino
      rw [lastCkptId_append, if_neg hne, lastCkptId_one hfirst, if_pos rfl, if_pos ⟨c, by simp, rfl⟩, hd] at hc
      exact hc
    · have hprec : done ++ [c] <+: calls := (List.prefix_append _ [d]).trans hpre'
      exact ((ckptExactAfter_append hfresh hgranted hfuel done c).mp (hexact _ hprec)).2.resolve_left hfirst
  · intro hids done hpre
    cases done using List.reverseRecOn with
    | nil => exact ckptExactAfter_nil
    | append_singleton done d =>
        rw [ckptExactAfter_append hfresh hgranted hfuel]
        by_cases hone : OneInode (done ++ [d])
        · refine ⟨fun ino => ?_, Or.inl hone⟩
          rw [lastCkptId_one hone]
          refine if_congr ⟨fun heq => ⟨d, by simp, heq.symm⟩, ?_⟩ rfl rfl
          rintro ⟨c, hc, rfl⟩
          exact hone c hc d (by simp)
        · have hd : d.latestTransId = noCkptId := by
            cases done using List.reverseRecOn with
            | nil => exact absurd (by simp [OneInode]) hone
            | append_singleton done c =>
                exact (hids done c d (by simpa using hpre) (by simpa using hone)).2
          refine ⟨fun ino => ?_, Or.inr hd⟩
          rw [hids.lastCkptId _ hpre hone, hd, ite_self]

theorem freshOne : Fresh [] [some (1, 1)] where
  pages p hp := by
    obtain rfl : p = 4096 := by simpa [grantPages, pagesFrom, logBlockOff] using hp
    exact ⟨by decide, by decide, by decide⟩
  nodup := by simp [grantPages, pagesFrom]
  nonempty g hg := by
    obtain rfl : g = (1, 1) := by simpa using hg
    decide

theorem novaCkpt_exact_one :
    CkptExact ⟨false, 2⟩ (novaCkptInit (fun _ => 0) [some (1, 1)]) [⟨33, 5⟩, ⟨33, 6⟩] := by
  refine (novaCkpt_exact_iff ⟨false, 2⟩ _ freshOne ⟨1, [], rfl, fun h => by cases h⟩ (by decide) _).mpr ?_
  intro done c d hpre hone
  refine absurd ?_ hone
  have hall : ∀ e ∈ done ++ [c, d], e.ino = 33 := by
    intro e he
    have := hpre.subset he
    simp only [List.mem_cons, List.not_mem_nil, or_false] at this
    rcases this with rfl | rfl <;> rfl
  intro a ha b hb
  rw [hall a ha, hall b hb]

/-- Inode 33 with transaction 5, then inode 34 with transaction 7: the table has 7 for both. -/
theorem novaCkpt_second_inode :
    ¬ ∀ (env : LogEnv) (m : ByteMem) (gs : Grants) (calls : List NovaCkptEntry), Fresh [] gs →
      FirstPageGranted env gs → (grantPages gs).length < env.fuel →
        CkptExact env (novaCkptInit m gs) calls := by
  intro hall
  have hgranted : FirstPageGranted ⟨false, 2⟩ [some (1, 1)] := ⟨1, [], rfl, fun h => by cases h⟩
  have hexact := hall ⟨false, 2⟩ (fun _ => 0) [some (1, 1)] [⟨33, 5⟩, ⟨34, 7⟩] freshOne hgranted (by decide)
    [⟨33, 5⟩, ⟨34, 7⟩] (List.prefix_refl _)
  have hlast := ((ckptExactAfter_append freshOne hgranted (by decide) [⟨33, 5⟩] ⟨34, 7⟩).mp hexact).1 33
  rw [if_pos ⟨⟨33, 5⟩, by simp, rfl⟩] at hlast
  exact absurd hlast (by decide)

end Parfs
