/-
What the steps of a ring keep.

A put goes past pieces that are done, stores a header where nothing is, and then `head`.  A get
takes the first piece that is not taken.  The users of elements store to the piece that is theirs.
Each of them finds the invariant and leaves it.
-/
import Parfs.Proofs.Solros

namespace Parfs

open Lib

/-! ### What a put does -/

section Puts

variable {rb : SolrosRing} {sent : List Enqueue} {received : List Dequeue} {s s' : Solros} {l : Laps} {t from_ : Nat}
  {req : PutReq} {pget : GetPc}

/-- There is a piece at `taken`. -/
theorem Around.first (h : Around rb sent received l) (hlt : l.taken < l.head) : ∃ g ∈ l.pieces, g.pos = l.taken :=
  h.tiled.tile h.cutTaken h.takenLo hlt

theorem Past.start (h : Around rb sent received l) : Past received l l.tail2 :=
  ⟨Nat.le_refl _, h.tiled.cut_start, fun _ hg hlt => absurd (h.tiled.mem hg).1 (Nat.not_le.mpr hlt)⟩

/-- The size that is put. -/
theorem putAlignSize_ok (h : rb.Ok) (payload : List UInt8) (hmax : rb.putAlignSize payload.length ≤ rb.size) :
    ReqOk rb ⟨payload, rb.putAlignSize payload.length, elmStatusInit⟩ := by
  have hpadding := h.padding
  have hdiv := Nat.div_add_mod (payload.length + 8 + rb.alignMask) (rb.alignMask + 1)
  have hlt := Nat.mod_lt (payload.length + 8 + rb.alignMask) (show 0 < rb.alignMask + 1 from Nat.succ_pos _)
  rw [Nat.mul_comm] at hdiv
  have hdvd : rb.alignMask + 1 ∣ rb.putAlignSize payload.length := Nat.dvd_mul_left _ _
  unfold SolrosRing.putAlignSize at hmax hdvd ⊢
  refine ⟨hdvd, ?_, hmax, ?_, ?_, false, rfl⟩ <;> dsimp only <;> omega

/-- A turn of the loop goes past a piece that is done, or not. -/
theorem ReapOk.turn {r : Reap} (h : Around rb sent received l) (hloop : ReapOk rb received l r t from_) :
    ∃ t', ReapOk rb received l (r.turn rb).1 t' from_ := by
  unfold Reap.turn
  dsimp only
  by_cases hc : r.rbTail2 ≠ r.rbTail ∧ (rb.elm r.rbTail2).has elmStatusDone
  · rw [if_pos hc]
    have hne : t ≠ from_ := fun heq => hc.1 (by rw [hloop.tail2, hloop.tail, heq])
    have hlo := hloop.lo
    have hhi := hloop.hi
    have htailLe := h.tailLe
    have htakenHi := h.takenHi
    obtain ⟨g, hg, hpos⟩ := h.tiled.tile hloop.past.cut hloop.past.lo (by omega)
    obtain ⟨hsize, hiff⟩ := h.elm hg
    rw [elm_eq, hloop.tail2, ← hpos] at hc
    refine ⟨t + g.size, Past.step h hloop.past hg hpos (hiff.mp hc.2), ?_, hloop.tail, hloop.cut, ?_, hhi⟩
    · rw [Reap.advance]
      dsimp only
      rw [elm_eq, hloop.tail2, ← hpos, hsize, Nat.mod_add_mod]
    · rw [← hpos]
      exact hloop.cut.next_le hg (by omega)
  · rw [if_neg hc]
    exact ⟨t, hloop⟩

/-- `tail` lags behind only while a get goes past a tombstone. -/
theorem GetOk.lag (h : GetOk rb l pget) (hlt : l.tail < l.taken) :
    ∃ rbTail, pget = .pass (l.tail % rb.size) rbTail ∧ ∀ g ∈ l.pieces, g.pos = l.tail → g.pos + g.size = l.taken := by
  have hne := Nat.ne_of_lt hlt
  cases h with
  | pass p rbTail hnext htail =>
      rcases htail with heq | ⟨hp, -, hall⟩
      · exact absurd heq hne
      · exact ⟨rbTail, by rw [hp], hall⟩
  | idle hc => exact absurd hc hne
  | empty hc => exact absurd hc hne
  | emptyTail h f hc => exact absurd hc hne
  | emptyAgain hc => exact absurd hc hne
  | emptyAgainTail h f hc => exact absurd hc hne
  | locate hc => exact absurd hc hne
  | load p hc => exact absurd hc hne
  | next p elm hc => exact absurd hc hne
  | reclaim p x g hc => exact absurd hc hne
  | owner p elm x g hf => exact absurd hf.caught hne
  | disown p elm x st g hf => exact absurd hf.caught hne
  | publish p elm x g hf => exact absurd hf.caught hne

/-- The loop that reclaims behind `tail`; it may not go past what a get has not given up yet. -/
theorem AggressiveOk.turn {r : AggressiveReap} (h : Around rb sent received l) (hget : GetOk rb l pget)
    (hguard : ∀ p rbTail, pget = .pass p rbTail → r.rbTail2 = p → r.rbTail = p)
    (hloop : AggressiveOk rb received l r t from_) : ∃ t', AggressiveOk rb received l (r.turn rb).1 t' from_ := by
  have htailLe := h.tailLe
  have htakenHi := h.takenHi
  have hroom := h.room
  have hlo := hloop.past.lo
  have hfromLo := hloop.fromLo
  have hfromHi := hloop.fromHi
  have htaken := Past.le_taken h hloop.past hloop.hi
  unfold AggressiveReap.turn
  dsimp only
  by_cases hend : r.rbTail2 = r.rbHead
  · rw [if_pos hend]
    exact ⟨t, hloop⟩
  · rw [if_neg hend]
    have hhead : t ≠ l.head := fun heq => hend (by rw [hloop.tail2, hloop.head, heq])
    have hhi := hloop.hi
    -- the flag says on which side of `from_` the loop is
    have hchanged : (r.changedTail || decide (r.rbTail = r.rbTail2)) = true → from_ ≤ t := by
      intro hflag
      by_cases hold : r.changedTail = true
      · exact hloop.changed hold
      · have hsame := hloop.same (by simpa using hold)
        have heq : r.rbTail = r.rbTail2 := by simpa [hold] using hflag
        rw [hloop.tail, hloop.tail2] at heq
        exact Nat.le_of_eq (mod_unique hsame (by omega) heq.symm).symm
    have hsame : (r.changedTail || decide (r.rbTail = r.rbTail2)) = false → t < from_ := by
      intro hflag
      simp only [Bool.or_eq_false_iff, decide_eq_false_iff_not] at hflag
      have hle := hloop.same hflag.1
      have hne : t ≠ from_ := fun heq => hflag.2 (by rw [hloop.tail, hloop.tail2, heq])
      omega
    by_cases hdone : (rb.elm r.rbTail2).has elmStatusDone = true
    · rw [if_pos hdone]
      obtain ⟨g, hg, hpos⟩ := h.tiled.tile hloop.past.cut hloop.past.lo (by omega)
      obtain ⟨hsize, hiff⟩ := h.elm hg
      have hmem := h.tiled.mem hg
      rw [elm_eq, hloop.tail2, ← hpos] at hdone
      have hpast := Past.step h hloop.past hg hpos (hiff.mp hdone)
      have hnext := Past.le_taken h hpast (by omega)
      refine ⟨t + g.size, hpast, by omega, ?_, hloop.tail, hloop.head, hloop.cut, hfromLo, hfromHi, ?_, ?_, ?_⟩
      · dsimp only [Reap.advance]
        rw [elm_eq, hloop.tail2, ← hpos, hsize, Nat.mod_add_mod]
      · intro hflag
        exact Nat.le_trans (hchanged hflag) (Nat.le_add_right _ _)
      · intro hflag
        rw [← hpos]
        exact hloop.cut.next_le hg (by rw [hpos]; exact hsame hflag)
      · -- past `tail` there is only the tombstone that a get is giving up
        rcases Nat.lt_trichotomy t l.tail with hlt | heq | hgt
        · left
          rw [← hpos]
          exact h.cutTail.next_le hg (by omega)
        · right
          obtain ⟨rbTail, hpc, hall⟩ := hget.lag (by omega)
          have hat := hguard _ _ hpc (by rw [hloop.tail2, heq])
          rw [hloop.tail] at hat
          have hfrom := mod_unique hfromHi (by omega) hat
          exact ⟨hfrom.symm, by rw [← hpos]; exact hall g hg (by omega)⟩
        · rcases hloop.tailLo with hle | ⟨-, heq⟩ <;> omega
    · rw [if_neg hdone]
      exact ⟨t, hloop.past, hhi, hloop.tail2, hloop.tail, hloop.head, hloop.cut, hfromLo, hfromHi, hchanged,
        fun hflag => Nat.le_of_lt (hsame hflag), hloop.tailLo⟩

/-- A get does not see `tail2` move. -/
theorem GetOk.drop {A B : List RingPiece} (h : GetOk rb l pget) (ha : Around rb sent received l) (hAB : l.pieces = A ++ B)
    (hA : ∀ g ∈ A, g.pos + g.size ≤ t) (ht : t ≤ l.taken) :
    GetOk { rb with tail2 := t % rb.size } { l with tail2 := t, pieces := B } pget := by
  refine h.frame rfl rfl rfl (Nat.le_refl _) ?_ ?_ (fun _ _ => rfl) ?_
  · intro g hg hpos
    have hlen := (ha.tiled.mem hg).2.2
    rw [hAB] at hg
    rcases List.mem_append.mp hg with hg | hg
    · have hle := hA g hg
      omega
    · exact hg
  · intro _ g hg _
    rw [hAB]
    exact List.mem_append_right A hg
  · intro g hg hpos
    have hmem := ha.tiled.mem hg
    omega

end Puts

section PutSteps

variable {rb : SolrosRing} {sent : List Enqueue} {received : List Dequeue} {s s' : Solros} {l : Laps} {t from_ : Nat}
  {req : PutReq} {pget : GetPc}

theorem SolrosInv.request (h : SolrosInv s l) {payload : List UInt8} (hrun : s.request payload = some s') :
    SolrosInv s' l := by
  unfold Solros.request at hrun
  cases hput : s.put with
  | idle =>
      rw [hput] at hrun
      dsimp only at hrun
      by_cases hmax : s.rb.size < s.rb.putAlignSize payload.length
      · rw [if_pos hmax] at hrun
        simp at hrun
      · rw [if_neg hmax, Option.some.injEq] at hrun
        subst hrun
        have hp := h.put
        rw [hput] at hp
        cases hp with
        | idle hlo => exact ⟨h.around, .start _ (putAlignSize_ok h.around.ok payload (by omega)) hlo, h.get⟩
  | _ =>
      rw [hput] at hrun
      simp at hrun

/-- The first loop ends. -/
theorem SolrosInv.reaped {r : Reap} (h : SolrosInv s l) (hreq : ReqOk s.rb req) (hloop : ReapOk s.rb s.received l r t from_) :
    ∃ l', SolrosInv (s.reaped req r) l' := by
  have hlo := hloop.lo
  have hhi := hloop.hi
  have htailLe := h.around.tailLe
  have htakenHi := h.around.takenHi
  obtain ⟨A, B, hAB, hA, haround⟩ := h.around.drop hloop.past (by omega)
  refine ⟨{ l with tail2 := t, pieces := B }, ?_, ?_, ?_⟩
  · rw [← hloop.tail2] at haround
    exact haround
  · have hreq' : ReqOk { s.rb with tail2 := r.rbTail2 } req := ⟨hreq.size, hreq.pos, hreq.max, hreq.fits, hreq.padding, hreq.status⟩
    unfold Solros.reaped
    dsimp only
    by_cases hfree : SolrosRing.freeSpaceSize { s.rb with tail2 := r.rbTail2 } < s.rb.size
    · rw [if_pos hfree]
      exact .aggressive req _ hreq' (by dsimp only; omega)
    · rw [if_neg hfree]
      exact .locate req hreq' (by dsimp only; omega)
  · have hget := h.get.drop h.around hAB hA (show t ≤ l.taken by omega)
    rw [← hloop.tail2] at hget
    exact hget

/-- The second one does. -/
theorem SolrosInv.reapedAggressively {r : AggressiveReap} (h : SolrosInv s l) (hreq : ReqOk s.rb req)
    (hloop : AggressiveOk s.rb s.received l r t from_) : ∃ l', SolrosInv (s.reapedAggressively req r) l' := by
  have hlo := hloop.past.lo
  have hfromLo := hloop.fromLo
  have hfromHi := hloop.fromHi
  have hroom := h.around.room
  obtain ⟨A, B, hAB, hA, haround⟩ := h.around.drop hloop.past hloop.hi
  have htaken := Past.le_taken h.around hloop.past hloop.hi
  refine ⟨{ l with tail2 := t, pieces := B }, ?_, ?_, ?_⟩
  · rw [← hloop.tail2] at haround
    exact haround
  · have hreq' : ReqOk { s.rb with tail2 := r.rbTail2 } req := ⟨hreq.size, hreq.pos, hreq.max, hreq.fits, hreq.padding, hreq.status⟩
    unfold Solros.reapedAggressively
    dsimp only
    by_cases hchanged : r.changedTail = true
    · rw [if_pos hchanged]
      exact .checkTail req _ _ from_ hreq'
        ⟨hloop.tail, hloop.tail2, hloop.changed hchanged, hfromHi, by dsimp only; omega, hloop.tailLo⟩
    · rw [if_neg hchanged]
      have hsame := hloop.same (by simpa using hchanged)
      exact .locate req hreq' (by dsimp only; omega)
  · have hget := h.get.drop h.around hAB hA htaken
    rw [← hloop.tail2] at hget
    exact hget

/-- The header is stored. -/
theorem SolrosInv.putElm (h : SolrosInv s l) (hreq : ReqOk s.rb req) (hlo : l.tail2 ≤ l.tail)
    (hfree : ¬s.rb.freeSpaceSize < req.asize) : SolrosInv (s.putElm req) l := by
  have hspace := h.around.freeSpace
  have hsmall := h.around.ok.small
  have hpos := hreq.pos
  have hpadding := hreq.padding
  have hmax := hreq.max
  have hsizePos := h.around.size_pos
  have hlt := Nat.mod_lt l.head hsizePos
  have hle := h.around.tiled.le
  have hroom : l.head + req.asize + 9 ≤ l.tail2 + s.rb.size := by omega
  obtain ⟨owner, hstatus⟩ := hreq.status
  have hasize : req.asize < 2 ^ 32 := by omega
  have hnext : (s.rb.head + req.asize) % s.rb.size = (l.head + req.asize) % s.rb.size := by
    rw [h.around.head, Nat.mod_add_mod]
  refine ⟨h.around.header _, ?_, ?_⟩
  · unfold Solros.putElm
    dsimp only
    by_cases htomb : (s.rb.head + req.asize) % s.rb.size < s.rb.head
    · rw [decide_eq_true htomb]
      refine .publish _ _ _ _ ⟨hreq.size, hpos, hmax, hreq.fits, hpadding, true, ?_⟩ hlo ⟨h.around.head, hnext, hroom, ?_⟩
      · rw [if_pos rfl, hstatus]
        cases owner <;> rfl
      · simp only [if_true]
        rw [elmAt_storeElm hasize hpadding (show elmStatusTombstone ||| elmStatusReady < 2 ^ 16 by decide)]
        exact ⟨rfl, rfl⟩
    · rw [decide_eq_false htomb]
      refine .publish _ _ _ _ ⟨hreq.size, hpos, hmax, hreq.fits, hpadding, owner, hstatus⟩ hlo ⟨h.around.head, hnext, hroom, ?_⟩
      simp only [Bool.false_eq_true, if_false]
      refine ⟨?_, elmAt_storeElm hasize hpadding (by rw [hstatus]; exact statusOf_lt)⟩
      show s.rb.head + req.asize < s.rb.size
      by_contra hover
      have hhead := h.around.head
      refine htomb ?_
      rw [Nat.mod_eq_sub_mod (by omega), Nat.mod_eq_of_lt (by omega)]
      omega
  · refine h.get.frame rfl rfl rfl (Nat.le_refl _) (fun _ hg _ => hg) (fun _ _ hg _ => hg) (fun hlt _ => ?_)
      fun g hg hat => by have hmem := h.around.tiled.mem hg; omega
    obtain ⟨g, hg, hat⟩ := h.around.first hlt
    have height := (h.around.eight hg).1
    refine elmAt_congr fun x h1 h2 => storeElm_of_outside ?_
    rw [h.around.head]
    rw [← hat] at h1 h2
    rcases h.around.away hg with hle | hle <;> omega

/-- The get sees what is put behind what it looks at. -/
theorem GetOk.append {rb' : SolrosRing} {n : Nat} {o : Option Nat} (h : GetOk rb l pget) (ha : Around rb sent received l)
    (hsize : rb'.size = rb.size) (hbuff : rb'.buff = rb.buff) :
    GetOk rb' { l with head := l.head + n, pieces := l.pieces ++ [⟨l.head, n, o⟩] } pget := by
  have htakenHi := ha.takenHi
  refine h.frame hsize rfl rfl (Nat.le_add_right _ _) (fun g hg _ => List.mem_append_left _ hg) ?_ (fun _ _ => by rw [hbuff]) ?_
  · intro hlt g hg hpos
    rcases List.mem_append.mp hg with hg | hg
    · exact hg
    · rw [List.mem_singleton.mp hg] at hpos
      dsimp only at hpos
      omega
  · intro g hg hpos
    have hmem := ha.tiled.mem hg
    omega

/-- `head` is stored. -/
theorem SolrosInv.publish {elmAddr rbHead : Nat} {tombstone : Bool} (h : SolrosInv s l) (hreq : ReqOk s.rb req)
    (hlo : l.tail2 ≤ l.tail) (helm : PublishOk s.rb l req elmAddr rbHead tombstone)
    (hput : s.put = .publish req elmAddr rbHead tombstone) (hrun : s.putStep = some s') : ∃ l', SolrosInv s' l' := by
  have htakenHi := h.around.takenHi
  obtain ⟨haddr, hhead, hroom, hstored⟩ := helm
  unfold Solros.putStep at hrun
  rw [hput] at hrun
  dsimp only at hrun
  rw [hhead] at hrun
  have hreq' : ReqOk { s.rb with head := (l.head + req.asize) % s.rb.size } req :=
    ⟨hreq.size, hreq.pos, hreq.max, hreq.fits, hreq.padding, hreq.status⟩
  cases tombstone with
  | true =>
      simp only [if_true] at hstored
      rw [if_pos rfl, Option.some.injEq] at hrun
      subst hrun
      rw [haddr] at hstored
      refine ⟨_, h.around.append (o := none) hreq.size hreq.pos hroom (fun _ _ => rfl) (fun k h1 h2 => absurd h2 (Nat.not_lt.mpr h1))
        (fun k hk => by simp at hk) (.tombstone rfl hstored.1 ?_), .start req hreq' hlo, h.get.append h.around rfl rfl⟩
      rw [hstored.2, decide_eq_false (by dsimp only; omega)]
  | false =>
      simp only [Bool.false_eq_true, if_false] at hstored
      rw [if_neg Bool.false_ne_true, Option.some.injEq] at hrun
      subst hrun
      obtain ⟨owner, hstatus⟩ := hreq.status
      have hlen : s.received.length ≤ s.sent.length := by
        by_contra hlt
        obtain ⟨e, he, -⟩ := h.around.delivered s.sent.length _ (List.getElem?_eq_getElem (by omega))
        simp at he
      rw [hstatus, haddr] at hstored
      have hholds : Holds s.rb.buff s.rb.size ⟨elmAddr + 8, req.payload, ∅, .copying⟩
          ⟨l.head, req.asize, some s.sent.length⟩ (statusOf owner false) :=
        ⟨by rw [haddr], hreq.fits, hstored.1, hstored.2, by simp, fun hne => absurd rfl hne, nofun⟩
      refine ⟨_, h.around.append (o := some s.sent.length) hreq.size hreq.pos hroom
        (fun k hk => List.getElem?_append_left hk) (fun k h1 h2 => ?_) (fun k hk => ?_)
        (.waiting s.sent.length ⟨elmAddr + 8, req.payload, ∅, .copying⟩ owner rfl htakenHi (by simp) hlen hholds), .idle hlo,
        h.get.append h.around rfl rfl⟩
      · simp only [List.length_append, List.length_singleton] at h2
        rw [show k = s.sent.length by omega]
      · rw [Option.some.injEq] at hk
        exact Nat.le_of_eq hk

/-- `tail` is made to catch up. -/
theorem SolrosInv.cas {rbTail rbTail2 : Nat} (h : SolrosInv s l) (hreq : ReqOk s.rb req)
    (hcatch : CatchUp s.rb l rbTail rbTail2 from_) (hput : s.put = .cas req rbTail rbTail2) (hrun : s.putStep = some s') :
    ∃ l', SolrosInv s' l' := by
  obtain ⟨htail, htail2, hlo, hhi, hroom, hlag⟩ := hcatch
  have htailLe := h.around.tailLe
  have htakenHi := h.around.takenHi
  have htakenLo := h.around.takenLo
  unfold Solros.putStep at hrun
  rw [hput] at hrun
  dsimp only at hrun
  rw [Option.some.injEq] at hrun
  subst hrun
  by_cases hsame : s.rb.tail = rbTail
  · rw [if_pos hsame]
    have heq : from_ = l.tail := mod_unique (N := s.rb.size) hhi (by omega) (by rw [← htail, ← hsame, h.around.tail])
    rw [htail2]
    have hreq' : ReqOk { s.rb with tail := l.tail2 % s.rb.size } req :=
      ⟨hreq.size, hreq.pos, hreq.max, hreq.fits, hreq.padding, hreq.status⟩
    refine ⟨_, h.around.moveTail h.around.tiled.cut_start htakenLo, .locate req hreq' (Nat.le_refl _), ?_⟩
    dsimp only
    by_cases hstill : l.tail2 = l.tail
    · refine h.get.frame rfl hstill rfl (Nat.le_refl _) (fun _ hg _ => hg) (fun _ _ hg _ => hg) (fun _ _ => rfl)
        fun g hg hat => ?_
      have hmem := h.around.tiled.mem hg
      omega
    · -- the get has to be at the tombstone that is behind `tail`
      have htaken : l.tail2 = l.taken := by omega
      obtain ⟨x, hpc, -⟩ := h.get.lag (by omega)
      have hget := h.get
      rw [hpc] at hget ⊢
      cases hget with
      | pass p x hnext => exact .pass _ x hnext (Or.inl htaken)
  · rw [if_neg hsame]
    have hne : l.tail ≠ from_ := fun heq => hsame (by rw [h.around.tail, htail, heq])
    exact ⟨l, h.around, .locate req hreq (by omega), h.get⟩

/-- **A step of a put keeps the invariant.** -/
theorem SolrosInv.putStep (h : SolrosInv s l) (hguard : s.overtakes = false) (hrun : s.putStep = some s') : ∃ l', SolrosInv s' l' := by
  have hput := h.put
  generalize hpc : s.put = pc at hput
  cases hput with
  | idle =>
      unfold Solros.putStep at hrun
      rw [hpc] at hrun
      simp at hrun
  | start req hreq hlo =>
      unfold Solros.putStep at hrun
      rw [hpc] at hrun
      dsimp only at hrun
      by_cases hfree : s.rb.freeSpaceSize < s.rb.size
      · rw [if_pos hfree, Option.some.injEq] at hrun
        subst hrun
        exact ⟨l, h.around, .reap req _ l.tail2 l.tail hreq
          ⟨.start h.around, h.around.tail2, h.around.tail, h.around.cutTail, hlo, Nat.le_refl _⟩, h.get⟩
      · rw [if_neg hfree, Option.some.injEq] at hrun
        subst hrun
        exact ⟨l, h.around, .locate req hreq hlo, h.get⟩
  | reap req r t from_ hreq hloop =>
      obtain ⟨t', hturn⟩ := hloop.turn h.around
      unfold Solros.putStep at hrun
      rw [hpc] at hrun
      dsimp only at hrun
      cases hmore : r.turn s.rb with
      | mk r' more =>
          rw [hmore] at hrun hturn
          cases more with
          | true =>
              rw [Option.some.injEq] at hrun
              subst hrun
              exact ⟨l, h.around, .reap req r' t' from_ hreq hturn, h.get⟩
          | false =>
              rw [Option.some.injEq] at hrun
              subst hrun
              exact h.reaped hreq hturn
  | aggressive req n hreq hlo =>
      unfold Solros.putStep at hrun
      rw [hpc, Option.some.injEq] at hrun
      subst hrun
      exact ⟨l, h.around, .reapAggressively req _ l.tail2 l.tail hreq ⟨.start h.around, h.around.tiled.le, h.around.tail2,
        h.around.tail, h.around.head, h.around.cutTail, hlo, Nat.le_refl _, nofun, fun _ => hlo, Or.inl hlo⟩, h.get⟩
  | reapAggressively req r t from_ hreq hloop =>
      have hpass : ∀ p rbTail, s.get = .pass p rbTail → r.rbTail2 = p → r.rbTail = p := by
        intro p rbTail hget hat
        by_contra hne
        unfold Solros.overtakes at hguard
        rw [hpc, hget] at hguard
        exact absurd ⟨hat, hne⟩ (of_decide_eq_false hguard)
      obtain ⟨t', hturn⟩ := hloop.turn h.around h.get hpass
      unfold Solros.putStep at hrun
      rw [hpc] at hrun
      dsimp only at hrun
      cases hmore : r.turn s.rb with
      | mk r' more =>
          rw [hmore] at hrun hturn
          cases more with
          | true =>
              rw [Option.some.injEq] at hrun
              subst hrun
              exact ⟨l, h.around, .reapAggressively req r' t' from_ hreq hturn, h.get⟩
          | false =>
              rw [Option.some.injEq] at hrun
              subst hrun
              exact h.reapedAggressively hreq hturn
  | checkTail req rbTail rbTail2 from_ hreq hcatch =>
      unfold Solros.putStep at hrun
      rw [hpc, Option.some.injEq] at hrun
      subst hrun
      refine ⟨l, h.around, ?_, h.get⟩
      dsimp only
      by_cases hsame : s.rb.tail = rbTail
      · rw [if_pos hsame]
        exact .cas req rbTail rbTail2 from_ hreq hcatch
      · rw [if_neg hsame]
        have hne : l.tail ≠ from_ := fun heq => hsame (by rw [h.around.tail, hcatch.tail, heq])
        exact .locate req hreq (hcatch.tailLo.resolve_right fun hlag => hne hlag.1)
  | cas req rbTail rbTail2 from_ hreq hcatch => exact h.cas hreq hcatch hpc hrun
  | locate req hreq hlo =>
      unfold Solros.putStep at hrun
      rw [hpc] at hrun
      dsimp only at hrun
      by_cases hfree : s.rb.freeSpaceSize < req.asize
      · rw [if_pos hfree, Option.some.injEq] at hrun
        subst hrun
        exact ⟨l, h.around, .idle hlo, h.get⟩
      · rw [if_neg hfree, Option.some.injEq] at hrun
        subst hrun
        exact ⟨l, h.putElm hreq hlo hfree⟩
  | publish req elmAddr rbHead tombstone hreq hlo helm => exact h.publish hreq hlo helm hpc hrun

end PutSteps

/-! ### What a get does -/

section Gets

variable {rb : SolrosRing} {w : ByteMem} {sent : List Enqueue} {received received' : List Dequeue} {s s' : Solros} {l : Laps}
  {g g' : RingPiece} {a b p status : Nat}

/-- The first piece that is not taken: a tombstone, or the element of the next put. -/
theorem Around.front (h : Around rb sent received l) (hg : g ∈ l.pieces) (hpos : g.pos = l.taken) :
    (g.elem = none ∧ (elmAt rb.buff (g.pos % rb.size)).status = tombstoneStatus false) ∨
      (g.elem = some received.length ∧ ∃ e owner, sent[received.length]? = some e ∧
        Holds rb.buff rb.size e g (statusOf owner e.isReady)) := by
  cases hk : g.elem with
  | some k =>
      obtain ⟨rfl, he⟩ := h.next hg hpos hk
      exact Or.inr ⟨rfl, he⟩
  | none =>
      refine Or.inl ⟨rfl, ?_⟩
      cases h.pieces g hg with
      | tombstone _ _ hstatus =>
          rw [decide_eq_false (by omega)] at hstatus
          exact hstatus
      | waiting k e owner helem => simp [hk] at helem
      | taken k e r helem => simp [hk] at helem
      | done k r helem => simp [hk] at helem

/-- A store to a piece is not seen at `head`. -/
theorem Around.headKept (h : Around rb sent received l) (hg : g ∈ l.pieces)
    (hm : ∀ x, x < g.pos % rb.size ∨ g.pos % rb.size + g.reach ≤ x → w x = rb.buff x) :
    elmAt w (l.head % rb.size) = elmAt rb.buff (l.head % rb.size) := by
  refine elmAt_congr fun x h1 h2 => hm x ?_
  rcases h.away hg with hle | hle <;> omega

/-- Nor in another piece. -/
theorem Around.kept (h : Around rb sent received l) (hg : g ∈ l.pieces) (hg' : g' ∈ l.pieces) (hne : g' ≠ g)
    (hm : ∀ x, x < g.pos % rb.size ∨ g.pos % rb.size + g.reach ≤ x → w x = rb.buff x) :
    elmAt w (g'.pos % rb.size) = elmAt rb.buff (g'.pos % rb.size) := by
  have height := (h.eight hg').1
  refine elmAt_congr fun x h1 h2 => hm x ?_
  rcases h.apart hg' hg hne with hle | hle <;> omega

/-- The status of a piece is stored. -/
theorem Around.statusAway (h : Around rb sent received l) (hg : g ∈ l.pieces) (status x : Nat)
    (hx : x < g.pos % rb.size ∨ g.pos % rb.size + g.reach ≤ x) :
    (rb.storeStatus (g.pos % rb.size) status).buff x = rb.buff x := by
  have height := (h.eight hg).1
  exact storeStatus_of_outside (by omega)

theorem RingPiece.Done.mono (h : g.Done received a) (hle : a ≤ b)
    (hreceived : ∀ (k : Nat) (r : Dequeue), received[k]? = some r → received'[k]? = some r) : g.Done received' b := by
  rcases h with ⟨hnone, hlt⟩ | ⟨k, r, hk, hr, hphase⟩
  · exact Or.inl ⟨hnone, by omega⟩
  · exact Or.inr ⟨k, r, hk, hreceived k r hr, hphase⟩

/-- What is in front of the end of the first piece that is not taken. -/
theorem Around.front_lt (h : Around rb sent received l) (hg : g ∈ l.pieces) (hpos : g.pos = l.taken) (hg' : g' ∈ l.pieces)
    (hne : g' ≠ g) : g'.pos < l.taken ↔ g'.pos < g.pos + g.size := by
  have hlen := (h.tiled.mem hg').2.2
  rcases h.tiled.apart hg' hg hne with hle | hle <;> omega

/-- A tombstone is given up. -/
theorem SolrosInv.reclaim {rbTail : Nat} (h : SolrosInv s l) (hcaught : l.tail = l.taken) (hg : g ∈ l.pieces)
    (hpos : g.pos = l.taken) (hnone : g.elem = none) (hp : p = g.pos % s.rb.size)
    (hnext : rbTail = (g.pos + g.size) % s.rb.size) :
    SolrosInv { s with
      rb := s.rb.storeStatus p (elmStatusTombstone ||| elmStatusReady ||| elmStatusDone)
      get := .pass p rbTail } { l with taken := g.pos + g.size } := by
  have hmem := h.around.tiled.mem hg
  have hsize := (h.around.elm hg).1
  subst hp
  have hm := h.around.statusAway hg (tombstoneStatus true)
  have helm := elmAt_storeStatus s.rb (g.pos % s.rb.size) (show tombstoneStatus true < 2 ^ 16 from tombstoneStatus_lt)
  have hpiece : RingPieceOk (s.rb.storeStatus (g.pos % s.rb.size) (tombstoneStatus true)).buff s.rb.size s.sent s.received
      (g.pos + g.size) g := by
    refine .tombstone hnone ?_ ?_
    · rw [helm]
      exact hsize
    · rw [helm, decide_eq_true (by omega)]
  refine ⟨h.around.store hg rfl rfl rfl rfl hm h.around.tail h.around.cutTail (h.around.tiled.cut_next hg) (by omega) (by omega)
    (by omega) (fun g' hg' hne => h.around.front_lt hg hpos hg' hne) (fun _ _ => rfl) (fun _ _ => rfl) hpiece
    fun k r hk => by simp [hnone] at hk, ?_, ?_⟩
  · exact h.put.frame rfl rfl (h.around.headKept hg hm) (fun g' _ hd => hd.mono (by omega) fun _ _ hr => hr) (Nat.le_refl _)
      (by omega) (Or.inr (Or.inl hcaught))
  · refine .pass _ _ hnext (Or.inr ⟨by rw [hcaught, hpos]; rfl, by dsimp only; omega, fun g' hg' hat => ?_⟩)
    rw [h.around.tiled.pos_inj hg' hg (by dsimp only at hat; omega)]

/-- And passed. -/
theorem SolrosInv.pass {rbTail : Nat} (h : SolrosInv s l) (hnext : rbTail = l.taken % s.rb.size) :
    SolrosInv { s with rb := { s.rb with tail := rbTail }, get := .empty } { l with tail := l.taken } := by
  rw [hnext]
  refine ⟨h.around.moveTail h.around.cutTaken (Nat.le_refl _), ?_, .empty rfl⟩
  exact h.put.frame rfl rfl rfl (fun _ _ hd => hd) h.around.tailLe (Nat.le_refl _) (Or.inr (Or.inr rfl))

/-- The tombstone in front of an element is no longer its. -/
theorem SolrosInv.disown {elm : SolrosElm} {rbTail : Nat} (h : SolrosInv s l) (hfound : Found s.rb l p elm rbTail g)
    (hstatus : status = (elmAt s.rb.buff p).status) :
    SolrosInv { s with
      rb := s.rb.storeStatus p (status - (status &&& elmStatusTombstoneOwner))
      get := .publish p elm rbTail } l := by
  obtain ⟨hcaught, hg, hpos, hsome, hp, hnext, hsize, hpadding, hready⟩ := hfound
  have htakenHi := h.around.takenHi
  subst hp
  obtain ⟨hnone, -⟩ | ⟨helem, e, owner, he, hholds⟩ := h.around.front hg hpos
  · exact absurd hnone hsome
  · rw [hholds.header, statusOf_ready] at hready
    rw [hholds.header] at hstatus hsize hpadding
    rw [hstatus, statusOf_disown, hready]
    have hm := h.around.statusAway hg (statusOf false true)
    have helm := elmAt_storeStatus s.rb (g.pos % s.rb.size) (show statusOf false true < 2 ^ 16 from statusOf_lt)
    rw [hholds.header] at helm
    have hholds' : Holds (s.rb.storeStatus (g.pos % s.rb.size) (statusOf false true)).buff s.rb.size e g
        (statusOf false e.isReady) := by
      refine ⟨hholds.data, hholds.fits, hholds.inside, by rw [helm, hready], fun i hi => ?_, hholds.full, fun st hst => ?_⟩
      · rw [storeStatus_of_outside (by rw [hholds.data]; omega)]
        exact hholds.copied i hi
      · simp [Enqueue.isReady, hst] at hready
    refine ⟨h.around.store hg rfl rfl rfl rfl hm h.around.tail h.around.cutTail h.around.cutTaken h.around.takenLo htakenHi
      h.around.tailLe (fun _ _ _ => Iff.rfl) (fun _ _ => rfl) (fun _ _ => rfl)
      (.waiting _ e false helem (Nat.le_of_eq hpos.symm) he (Nat.le_refl _) hholds') ?_, ?_, ?_⟩
    · intro k r hk hr
      exact h.around.delivered k r hr
    · exact h.put.frame rfl rfl (h.around.headKept hg hm) (fun _ _ hd => hd) (Nat.le_refl _) (Nat.le_refl _) (Or.inl ⟨rfl, rfl⟩)
    · refine .publish _ elm rbTail g ⟨hcaught, hg, hpos, hsome, rfl, hnext, ?_, ?_, ?_⟩ ?_
      · rw [helm]
        exact hsize
      · rw [helm]
        exact hpadding
      · rw [helm]
        exact statusOf_ready
      · rw [helm]

/-- An element is handed out. -/
theorem SolrosInv.handOut {elm : SolrosElm} {rbTail : Nat} (h : SolrosInv s l) (hfound : Found s.rb l p elm rbTail g)
    (hstatus : (elmAt s.rb.buff p).status = statusOf false true) :
    SolrosInv { s with
      rb := { s.rb with tail := rbTail }
      get := .idle
      received := s.received ++ [⟨p + 8, elm.size - elm.padding, fun _ => none, .copying⟩] }
      { l with tail := g.pos + g.size, taken := g.pos + g.size } := by
  obtain ⟨hcaught, hg, hpos, hsome, hp, hnext, hsize, hpadding, hready⟩ := hfound
  have hmem := h.around.tiled.mem hg
  subst hp
  obtain ⟨hnone, -⟩ | ⟨helem, e, owner, he, hholds⟩ := h.around.front hg hpos
  · exact absurd hnone hsome
  · have hheader := hholds.header
    have hfits := hholds.fits
    rw [hheader, statusOf_ready] at hready
    rw [hheader] at hstatus hsize hpadding
    dsimp only at hstatus hsize hpadding
    rw [hstatus] at hholds
    have hphase : e.phase = .ready := of_decide_eq_true hready
    have hlast : ∀ (r : Dequeue), (s.received ++ [r])[s.received.length]? = some r := fun r => by simp
    have hold : ∀ (r : Dequeue) (k : Nat), g.elem ≠ some k → (s.received ++ [r])[k]? = s.received[k]? := by
      intro r k hne
      rcases Nat.lt_trichotomy k s.received.length with hlt | heq | hgt
      · exact List.getElem?_append_left hlt
      · exact absurd (by rw [helem, heq]) hne
      · rw [List.getElem?_eq_none (by simp; omega), List.getElem?_eq_none (by omega)]
    refine ⟨h.around.store hg rfl rfl rfl rfl (fun _ _ => rfl) hnext (h.around.tiled.cut_next hg) (h.around.tiled.cut_next hg)
      (by omega) (by omega) (Nat.le_refl _) (fun g' hg' hne => h.around.front_lt hg hpos hg' hne) (fun _ _ => rfl) (hold _)
      (.taken _ e _ helem (show g.pos < g.pos + g.size by omega) he (hlast _) (show DequeuePhase.copying ≠ .done by decide) hphase
        hholds) ?_, ?_, .idle rfl⟩
    · intro k r hk hr
      rw [helem, Option.some.injEq] at hk
      subst hk
      rw [hlast, Option.some.injEq] at hr
      subst hr
      refine ⟨e, he, hphase, hholds.data.symm, ?_, by simp, by simp⟩
      dsimp only
      omega
    · refine h.put.frame rfl rfl rfl (fun g' _ hd => hd.mono (by omega) fun k r hr => ?_) (by omega) (by omega) (Or.inr (Or.inr rfl))
      rw [List.getElem?_append_left (List.getElem?_eq_some_iff.mp hr).1]
      exact hr

theorem SolrosInv.requestGet (h : SolrosInv s l) (hrun : s.requestGet = some s') : SolrosInv s' l := by
  have hget := h.get
  unfold Solros.requestGet at hrun
  generalize hpc : s.get = pc at hget hrun
  cases hget with
  | idle hcaught =>
      rw [Option.some.injEq] at hrun
      subst hrun
      exact ⟨h.around, h.put, .empty hcaught⟩
  | _ => simp at hrun

/-- **A step of a get keeps the invariant.** -/
theorem SolrosInv.getStep (h : SolrosInv s l) (hrun : s.getStep = some s') : ∃ l', SolrosInv s' l' := by
  have hget := h.get
  have htakenHi := h.around.takenHi
  have hle := h.around.tiled.le
  unfold Solros.getStep at hrun
  generalize hpc : s.get = pc at hget hrun
  -- a head that is not where `tail` is is behind it
  have hbehind : ∀ {x from_ : Nat}, l.tail = l.taken → l.taken ≤ from_ → x = from_ % s.rb.size → x ≠ s.rb.tail → l.taken < from_ := by
    intro x from_ hc hlo hx hne
    refine Nat.lt_of_le_of_ne hlo fun heq => hne ?_
    rw [hx, h.around.tail, hc, heq]
  cases hget with
  | idle => simp at hrun
  | empty hc =>
      rw [Option.some.injEq] at hrun
      subst hrun
      exact ⟨l, h.around, h.put, .emptyTail _ l.head hc htakenHi (Nat.le_refl _) h.around.head⟩
  | emptyTail x from_ hc hlo hhi hx =>
      rw [Option.some.injEq] at hrun
      subst hrun
      refine ⟨l, h.around, h.put, ?_⟩
      dsimp only
      by_cases hsame : x = s.rb.tail
      · rw [if_pos hsame]
        exact .emptyAgain hc
      · rw [if_neg hsame]
        exact .locate hc (Nat.lt_of_lt_of_le (hbehind hc hlo hx hsame) hhi)
  | emptyAgain hc =>
      rw [Option.some.injEq] at hrun
      subst hrun
      exact ⟨l, h.around, h.put, .emptyAgainTail _ l.head hc htakenHi (Nat.le_refl _) h.around.head⟩
  | emptyAgainTail x from_ hc hlo hhi hx =>
      rw [Option.some.injEq] at hrun
      subst hrun
      refine ⟨l, h.around, h.put, ?_⟩
      dsimp only
      by_cases hsame : x = s.rb.tail
      · rw [if_pos hsame]
        exact .idle hc
      · rw [if_neg hsame]
        exact .locate hc (Nat.lt_of_lt_of_le (hbehind hc hlo hx hsame) hhi)
  | locate hc hlt =>
      rw [Option.some.injEq] at hrun
      subst hrun
      exact ⟨l, h.around, h.put, .load _ hc hlt (by rw [h.around.tail, hc])⟩
  | load p hc hlt hp =>
      rw [Option.some.injEq] at hrun
      subst hrun
      refine ⟨l, h.around, h.put, ?_⟩
      dsimp only
      by_cases hready : (s.rb.elm p).has elmStatusReady = true
      · rw [if_pos hready]
        exact .next p _ hc hlt hp rfl hready
      · rw [if_neg hready]
        exact .idle hc
  | next p elm hc hlt hp helm hready =>
      rw [Option.some.injEq] at hrun
      subst hrun
      refine ⟨l, h.around, h.put, ?_⟩
      dsimp only
      obtain ⟨g, hg, hpos⟩ := h.around.first hlt
      have hsize := (h.around.elm hg).1
      rw [hp, ← hpos] at helm
      have hnext : (s.rb.tail + elm.size) % s.rb.size = (g.pos + g.size) % s.rb.size := by
        rw [helm, hsize, h.around.tail, hc, hpos, Nat.mod_add_mod]
      obtain ⟨hnone, hstatus⟩ | ⟨helem, e, owner, he, hholds⟩ := h.around.front hg hpos
      · rw [if_pos (by rw [helm, SolrosElm.has_status hstatus, tombstoneStatus_tombstone])]
        exact .reclaim p _ g hc hg hpos hnone (by rw [hp, hpos]) hnext
      · have hheader := hholds.header
        rw [helm, hheader, statusOf_ready] at hready
        have hfound : Found s.rb l p elm ((s.rb.tail + elm.size) % s.rb.size) g := by
          refine ⟨hc, hg, hpos, by rw [helem]; simp, by rw [hp, hpos], hnext, ?_, ?_, ?_⟩ <;> rw [hp, ← hpos]
          · rw [helm]
          · rw [helm]
          · rw [hheader, statusOf_ready, hready]
        rw [if_neg (by rw [helm, hheader, statusOf_tombstone]; exact Bool.false_ne_true)]
        cases owner with
        | true =>
            rw [if_pos (by rw [helm, hheader, statusOf_owner])]
            exact .owner p elm _ g hfound
        | false =>
            rw [if_neg (by rw [helm, hheader, statusOf_owner]; exact Bool.false_ne_true)]
            refine .publish p elm _ g hfound ?_
            rw [hp, ← hpos, hheader, hready]
  | reclaim p rbTail g hc hg hpos hnone hp hnext =>
      rw [Option.some.injEq] at hrun
      subst hrun
      exact ⟨_, h.reclaim hc hg hpos hnone hp hnext⟩
  | pass p rbTail hnext =>
      rw [Option.some.injEq] at hrun
      subst hrun
      exact ⟨_, h.pass hnext⟩
  | owner p elm rbTail g hfound =>
      rw [Option.some.injEq] at hrun
      subst hrun
      exact ⟨l, h.around, h.put, .disown p elm rbTail _ g hfound rfl⟩
  | disown p elm rbTail status g hfound hstatus =>
      rw [Option.some.injEq] at hrun
      subst hrun
      exact ⟨_, h.disown hfound hstatus⟩
  | publish p elm rbTail g hfound hstatus =>
      rw [Option.some.injEq] at hrun
      subst hrun
      exact ⟨_, h.handOut hfound hstatus⟩

end Gets

/-! ### What the users do -/

section Users

variable {w : ByteMem} {sent' : List Enqueue} {received' : List Dequeue} {s s' : Solros} {l : Laps}
  {g : RingPiece} {e e' : Enqueue} {r r' : Dequeue} {k i : Nat}

/-- Only one piece changes, and not under a get that looks at it. -/
theorem SolrosInv.touch (h : SolrosInv s l) (hg : g ∈ l.pieces)
    (hm : ∀ x, x < g.pos % s.rb.size ∨ g.pos % s.rb.size + g.reach ≤ x → w x = s.rb.buff x)
    (hready : g.pos = l.taken → (elmAt s.rb.buff (g.pos % s.rb.size)).has elmStatusReady = true →
      elmAt w (g.pos % s.rb.size) = elmAt s.rb.buff (g.pos % s.rb.size))
    (hsent : ∀ k, g.elem ≠ some k → sent'[k]? = s.sent[k]?)
    (hreceived : ∀ k, g.elem ≠ some k → received'[k]? = s.received[k]?)
    (hpiece : RingPieceOk w s.rb.size sent' received' l.taken g)
    (hdelivered : ∀ k r, g.elem = some k → received'[k]? = some r → ∃ e, sent'[k]? = some e ∧ Delivered e r)
    (hdone : g.Done s.received l.taken → g.Done received' l.taken) :
    SolrosInv ⟨{ s.rb with buff := w }, s.put, s.get, sent', received'⟩ l := by
  refine ⟨h.around.store hg rfl rfl rfl rfl hm h.around.tail h.around.cutTail h.around.cutTaken h.around.takenLo
    h.around.takenHi h.around.tailLe (fun _ _ _ => Iff.rfl) hsent hreceived hpiece hdelivered, ?_, ?_⟩
  · refine h.put.frame rfl rfl (h.around.headKept hg hm) (fun g' hg' hd => ?_) (Nat.le_refl _)
      (Nat.le_refl _) (Or.inl ⟨rfl, rfl⟩)
    by_cases hne : g' = g
    · rw [hne] at hd ⊢
      exact hdone hd
    · rcases hd with hfront | ⟨k, r, hk, hr, hphase⟩
      · exact Or.inl hfront
      · exact Or.inr ⟨k, r, hk, (hreceived k fun hk' => hne (h.around.elem_inj hg' hg hk hk')).trans hr, hphase⟩
  · refine h.get.frame rfl rfl rfl (Nat.le_refl _) (fun _ hg' _ => hg') (fun _ _ hg' _ => hg') (fun hlt hhas => ?_)
      fun g' hg' hat => by have hmem := h.around.tiled.mem hg'; omega
    obtain ⟨g', hg', hat⟩ := h.around.first hlt
    rw [← hat] at hhas ⊢
    by_cases hne : g' = g
    · rw [hne] at hat hhas ⊢
      exact hready hat hhas
    · exact h.around.kept hg hg' hne hm

/-- The piece of an element that is not ready. -/
theorem SolrosInv.sending (h : SolrosInv s l) (he : s.sent[k]? = some e) (hphase : e.phase ≠ .ready) :
    ∃ g ∈ l.pieces, ∃ owner, g.elem = some k ∧ l.taken ≤ g.pos ∧ s.received.length ≤ k ∧
      Holds s.rb.buff s.rb.size e g (statusOf owner false) := by
  have hnew : s.received.length ≤ k := by
    by_contra hlt
    obtain ⟨e', he', hdel⟩ := h.around.delivered k _ (List.getElem?_eq_getElem (by omega))
    rw [he, Option.some.injEq] at he'
    exact hphase (he' ▸ hdel.ready)
  have hnot : e.isReady = false := decide_eq_false hphase
  obtain ⟨g, hg, hk⟩ := h.around.waiting k hnew (List.getElem?_eq_some_iff.mp he).1
  cases h.around.pieces g hg with
  | tombstone hnone => simp [hnone] at hk
  | waiting k' e' owner helem hpos hsent _ holds =>
      obtain rfl : k' = k := Option.some.inj (helem.symm.trans hk)
      rw [he, Option.some.injEq] at hsent
      subst hsent
      rw [hnot] at holds
      exact ⟨g, hg, owner, helem, hpos, hnew, holds⟩
  | taken k' e' r helem hpos hsent hreceived =>
      obtain rfl : k' = k := Option.some.inj (helem.symm.trans hk)
      rw [List.getElem?_eq_none hnew] at hreceived
      simp at hreceived
  | done k' r helem hpos hreceived =>
      obtain rfl : k' = k := Option.some.inj (helem.symm.trans hk)
      rw [List.getElem?_eq_none hnew] at hreceived
      simp at hreceived

/-- The piece of an element that is in use. -/
theorem SolrosInv.using (h : SolrosInv s l) (hr : s.received[k]? = some r) (hphase : r.phase ≠ .done) :
    ∃ g ∈ l.pieces, ∃ e, g.elem = some k ∧ g.pos < l.taken ∧ s.sent[k]? = some e ∧ Delivered e r ∧
      Holds s.rb.buff s.rb.size e g (statusOf false true) := by
  obtain ⟨g, hg, hk⟩ := h.around.inUse k r hr hphase
  obtain ⟨e, he, hdel⟩ := h.around.delivered k r hr
  cases h.around.pieces g hg with
  | tombstone hnone => simp [hnone] at hk
  | waiting k' e' owner helem hpos hsent hnew holds =>
      obtain rfl : k' = k := Option.some.inj (helem.symm.trans hk)
      rw [List.getElem?_eq_none hnew] at hr
      simp at hr
  | taken k' e' r' helem hpos hsent hreceived _ _ holds =>
      obtain rfl : k' = k := Option.some.inj (helem.symm.trans hk)
      rw [he, Option.some.injEq] at hsent
      subst hsent
      exact ⟨g, hg, e, helem, hpos, he, hdel, holds⟩
  | done k' r' helem hpos hreceived hphase' =>
      obtain rfl : k' = k := Option.some.inj (helem.symm.trans hk)
      rw [hr, Option.some.injEq] at hreceived
      exact absurd (hreceived ▸ hphase') hphase

/-- A sender does something to its element. -/
theorem SolrosInv.send (h : SolrosInv s l) (hg : g ∈ l.pieces) (helem : g.elem = some k) (hpos : l.taken ≤ g.pos)
    (hnew : s.received.length ≤ k) (hold : (elmAt s.rb.buff (g.pos % s.rb.size)).has elmStatusReady = false)
    (he : s.sent[k]? = some e) (hm : ∀ x, x < g.pos % s.rb.size ∨ g.pos % s.rb.size + g.reach ≤ x → w x = s.rb.buff x)
    {o : Bool} (hholds : Holds w s.rb.size e' g (statusOf o e'.isReady)) :
    SolrosInv ⟨{ s.rb with buff := w }, s.put, s.get, s.sent.set k e', s.received⟩ l := by
  have hlt := (List.getElem?_eq_some_iff.mp he).1
  refine h.touch hg hm (fun _ hhas => ?_) (fun k' hne => ?_) (fun _ _ => rfl)
    (.waiting k e' o helem hpos (by simp [hlt]) hnew hholds) (fun k' r hk hr => ?_) id
  · rw [hold] at hhas
    simp at hhas
  · refine List.getElem?_set_ne fun heq => hne ?_
    rw [helem, heq]
  · rw [helem, Option.some.injEq] at hk
    rw [← hk, List.getElem?_eq_none hnew] at hr
    simp at hr

theorem SolrosInv.copyTo (h : SolrosInv s l) (hrun : s.copyTo k i = some s') : SolrosInv s' l := by
  unfold Solros.copyTo at hrun
  cases he : s.sent[k]? with
  | none => simp [he] at hrun
  | some e =>
      rw [he] at hrun
      dsimp only at hrun
      cases hphase : e.phase with
      | settingReady st => simp [hphase] at hrun
      | ready => simp [hphase] at hrun
      | copying =>
          cases hb : e.payload[i]? with
          | none => simp [hphase, hb] at hrun
          | some b =>
              rw [hphase, hb, Option.some.injEq] at hrun
              subst hrun
              obtain ⟨g, hg, owner, helem, hpos, hnew, hholds⟩ := h.sending he (by rw [hphase]; simp)
              have hi := (List.getElem?_eq_some_iff.mp hb).1
              have hdata := hholds.data
              have hfits := hholds.fits
              have hreach : g.reach = g.size := if_neg (by rw [helem]; simp)
              have hout : ∀ x, x ≠ e.data + i → s.rb.buff.write (e.data + i) [b] x = s.rb.buff x := fun x hx =>
                ByteMem.write_of_outside (by simp; omega)
              have hin : s.rb.buff.write (e.data + i) [b] (e.data + i) = b := by
                simp [ByteMem.write]
              refine h.send hg helem hpos hnew (by rw [hholds.header, statusOf_ready]) he (fun x hx => hout x (by omega)) (o := owner)
                ⟨hdata, hfits, hholds.inside, ?_, ?_, fun hne => absurd rfl hne, fun st hst => ?_⟩
              · rw [elmAt_congr fun x h1 h2 => hout x (by omega), hholds.header]
                simp [Enqueue.isReady]
              · intro j hj
                by_cases hji : j = i
                · rw [hji, hin]
                  exact hb
                · rw [hout _ (by dsimp only; omega)]
                  exact hholds.copied j ((Finset.mem_insert.mp hj).resolve_left hji)
              · simp at hst

theorem SolrosInv.loadReady (h : SolrosInv s l) (hrun : s.loadReady k = some s') : SolrosInv s' l := by
  unfold Solros.loadReady at hrun
  cases he : s.sent[k]? with
  | none => simp [he] at hrun
  | some e =>
      rw [he] at hrun
      dsimp only at hrun
      by_cases hc : e.phase = .copying ∧ e.copied = Finset.range e.payload.length
      · rw [if_pos hc, Option.some.injEq] at hrun
        subst hrun
        obtain ⟨g, hg, owner, helem, hpos, hnew, hholds⟩ := h.sending he (by rw [hc.1]; simp)
        have hat : s.rb.elm (e.data - 8) = ⟨g.size, g.size - e.payload.length, statusOf owner false⟩ := by
          rw [elm_eq, hholds.data, Nat.add_sub_cancel, hholds.header]
        refine h.send hg helem hpos hnew (by rw [hholds.header, statusOf_ready]) he (fun _ _ => rfl) (o := owner)
          ⟨hholds.data, hholds.fits, hholds.inside, ?_, hholds.copied, fun _ => hc.2, fun st hst => ?_⟩
        · rw [hholds.header]
          simp [Enqueue.isReady]
        · rw [hat] at hst
          simp only [EnqueuePhase.settingReady.injEq] at hst
          rw [← hst]
          simp [Enqueue.isReady]
      · rw [if_neg hc] at hrun
        simp at hrun

theorem SolrosInv.storeReady (h : SolrosInv s l) (hrun : s.storeReady k = some s') : SolrosInv s' l := by
  unfold Solros.storeReady at hrun
  cases he : s.sent[k]? with
  | none => simp [he] at hrun
  | some e =>
      rw [he] at hrun
      dsimp only at hrun
      cases hphase : e.phase with
      | copying => simp [hphase] at hrun
      | ready => simp [hphase] at hrun
      | settingReady st =>
          rw [hphase, Option.some.injEq] at hrun
          subst hrun
          obtain ⟨g, hg, owner, helem, hpos, hnew, hholds⟩ := h.sending he (by rw [hphase]; simp)
          have hp : e.data - 8 = g.pos % s.rb.size := by rw [hholds.data, Nat.add_sub_cancel]
          have hstored := elmAt_storeStatus s.rb (g.pos % s.rb.size) (show statusOf owner true < 2 ^ 16 from statusOf_lt)
          rw [hp, hholds.setting st hphase, statusOf_setReady]
          refine h.send hg helem hpos hnew (w := (s.rb.storeStatus (g.pos % s.rb.size) (statusOf owner true)).buff)
            (by rw [hholds.header, statusOf_ready]) he (h.around.statusAway hg _) (o := owner)
            ⟨hholds.data, hholds.fits, hholds.inside, ?_, fun j hj => ?_, fun _ => hholds.full (by rw [hphase]; simp), fun _ hst => ?_⟩
          · rw [hstored, hholds.header]
            simp [Enqueue.isReady]
          · have hdata := hholds.data
            rw [storeStatus_of_outside (Or.inr (show g.pos % s.rb.size + 8 ≤ e.data + j by omega))]
            exact hholds.copied j hj
          · simp at hst

/-- A receiver does something to its element. -/
theorem SolrosInv.receive (h : SolrosInv s l) (hg : g ∈ l.pieces) (helem : g.elem = some k) (hpos : g.pos < l.taken)
    (he : s.sent[k]? = some e) (hr : s.received[k]? = some r) (hphase : r.phase ≠ .done)
    (hm : ∀ x, x < g.pos % s.rb.size ∨ g.pos % s.rb.size + g.reach ≤ x → w x = s.rb.buff x)
    (hpiece : RingPieceOk w s.rb.size s.sent (s.received.set k r') l.taken g) (hdel : Delivered e r') :
    SolrosInv ⟨{ s.rb with buff := w }, s.put, s.get, s.sent, s.received.set k r'⟩ l := by
  have hlt := (List.getElem?_eq_some_iff.mp hr).1
  refine h.touch hg hm (fun hat => absurd hat (Nat.ne_of_lt hpos)) (fun _ _ => rfl) (fun k' hne => ?_) hpiece
    (fun k' r'' hk hr'' => ?_) (fun hd => ?_)
  · refine List.getElem?_set_ne fun heq => hne ?_
    rw [helem, heq]
  · rw [helem, Option.some.injEq] at hk
    subst hk
    rw [List.getElem?_set_self hlt, Option.some.injEq] at hr''
    exact ⟨e, he, hr'' ▸ hdel⟩
  · rcases hd with ⟨hnone, -⟩ | ⟨k', r'', hk, hr'', hdone⟩
    · simp [hnone] at helem
    · obtain rfl : k = k' := Option.some.inj (helem.symm.trans hk)
      rw [hr, Option.some.injEq] at hr''
      exact absurd (hr'' ▸ hdone) hphase

theorem SolrosInv.copyFrom (h : SolrosInv s l) (hrun : s.copyFrom k i = some s') : SolrosInv s' l := by
  unfold Solros.copyFrom at hrun
  cases hr : s.received[k]? with
  | none => simp [hr] at hrun
  | some r =>
      rw [hr] at hrun
      dsimp only at hrun
      by_cases hc : r.phase = .copying ∧ i < r.size
      · rw [if_pos hc, Option.some.injEq] at hrun
        subst hrun
        have hlt := (List.getElem?_eq_some_iff.mp hr).1
        have hphase : r.phase ≠ .done := by rw [hc.1]; simp
        obtain ⟨g, hg, e, helem, hpos, he, hdel, hholds⟩ := h.using hr hphase
        have hbyte : e.payload[i]? = some (s.rb.buff (r.data + i)) := by
          rw [hdel.data]
          refine hholds.copied i ?_
          rw [hholds.full (by rw [hdel.ready]; simp), Finset.mem_range, ← hdel.size]
          exact hc.2
        refine h.receive hg helem hpos he hr hphase (fun _ _ => rfl)
          (.taken k e _ helem hpos he (List.getElem?_set_self hlt) hphase hdel.ready hholds)
          ⟨hdel.ready, hdel.data, hdel.size, fun j b hb => ?_, hdel.phase⟩
        dsimp only at hb
        by_cases hji : j = i
        · subst hji
          rw [Function.update_self, Option.some.injEq] at hb
          rw [hbyte, hb]
        · rw [Function.update_of_ne hji] at hb
          exact hdel.dest j b hb
      · rw [if_neg hc] at hrun
        simp at hrun

theorem SolrosInv.loadDone (h : SolrosInv s l) (hrun : s.loadDone k = some s') : SolrosInv s' l := by
  unfold Solros.loadDone at hrun
  cases hr : s.received[k]? with
  | none => simp [hr] at hrun
  | some r =>
      rw [hr] at hrun
      dsimp only at hrun
      by_cases hc : r.phase = .copying
      · rw [if_pos hc, Option.some.injEq] at hrun
        subst hrun
        have hlt := (List.getElem?_eq_some_iff.mp hr).1
        have hphase : r.phase ≠ .done := by rw [hc]; simp
        obtain ⟨g, hg, e, helem, hpos, he, hdel, hholds⟩ := h.using hr hphase
        -- the get has disowned it
        have howner : (s.rb.elm (r.data - 8)).has elmStatusTombstoneOwner = false := by
          rw [elm_eq, hdel.data, hholds.data, Nat.add_sub_cancel, hholds.header, statusOf_owner]
        rw [howner, if_neg Bool.false_ne_true]
        exact h.receive hg helem hpos he hr hphase (fun _ _ => rfl)
          (.taken k e _ helem hpos he (List.getElem?_set_self hlt) (by simp) hdel.ready hholds)
          ⟨hdel.ready, hdel.data, hdel.size, hdel.dest, by simp⟩
      · rw [if_neg hc] at hrun
        simp at hrun

/-- No element owns a tombstone any more when it is set done. -/
theorem SolrosInv.storeTombstone (h : SolrosInv s l) : s.storeTombstone k = none := by
  unfold Solros.storeTombstone
  cases hr : s.received[k]? with
  | none => rfl
  | some r =>
      obtain ⟨e, -, hdel⟩ := h.around.delivered k r hr
      dsimp only
      rw [if_neg hdel.phase]

theorem SolrosInv.storeDone (h : SolrosInv s l) (hrun : s.storeDone k = some s') : SolrosInv s' l := by
  unfold Solros.storeDone at hrun
  cases hr : s.received[k]? with
  | none => simp [hr] at hrun
  | some r =>
      rw [hr] at hrun
      dsimp only at hrun
      by_cases hc : r.phase = .settingDone
      · rw [if_pos hc, Option.some.injEq] at hrun
        subst hrun
        have hlt := (List.getElem?_eq_some_iff.mp hr).1
        have hphase : r.phase ≠ .done := by rw [hc]; simp
        obtain ⟨g, hg, e, helem, hpos, he, hdel, hholds⟩ := h.using hr hphase
        have hp : r.data - 8 = g.pos % s.rb.size := by rw [hdel.data, hholds.data, Nat.add_sub_cancel]
        have hstored := elmAt_storeStatus s.rb (g.pos % s.rb.size) (show elmStatusDone < 2 ^ 16 by decide)
        rw [hholds.header] at hstored
        rw [hp]
        refine h.receive hg helem hpos he hr hphase (w := (s.rb.storeStatus (g.pos % s.rb.size) elmStatusDone).buff)
          (h.around.statusAway hg _)
          (.done k _ helem hpos (List.getElem?_set_self hlt) rfl ?_ ?_) ⟨hdel.ready, hdel.data, hdel.size, hdel.dest, by simp⟩
        · rw [hstored]
        · rw [hstored]
      · rw [if_neg hc] at hrun
        simp at hrun

end Users

end Parfs
