/-
Many callers are as good as one of each kind.

While a call is in `__ring_buffer_put` it is the combiner that is in `exec_op`, and there is one
of these.  So the ring is where it would be if there were but one to put, who is where that call
is; and the same for gets.  What holds of such a ring holds of this one.
-/
import Parfs.Proofs.Combining
import Parfs.Proofs.SolrosRun
import Parfs.SolrosCalls

namespace Parfs

open Lib

/-! ### Who is in `exec_op` -/

def Combining.Inside (q : Combining) (k : Nat) : Prop := ∃ r max i, q.pc k = .inside r max i

/-- The call in `exec_op` is at `p`, and the others are nowhere. -/
structure Active {P : Type} (q : Combining) (pcs : Nat → P) (idle p : P) : Prop where
  inside : ∀ k, q.Inside k → pcs k = p
  outside : ∀ k, ¬q.Inside k → pcs k = idle
  none : (∀ k, ¬q.Inside k) → p = idle

section Active

variable {P : Type} {q q' : Combining} {pcs : Nat → P} {idle p p' : P} {k r max i : Nat} {gone queue : List Nat}

theorem CombineInv.insideOne (h : CombineInv q gone queue) {k' : Nat} (hk : q.Inside k) (hk' : q.Inside k') : k = k' := by
  obtain ⟨r, max, i, hpc⟩ := hk
  obtain ⟨r', max', i', hpc'⟩ := hk'
  exact h.one k k' r r' (serves_of (by rw [hpc]; rfl)) (serves_of (by rw [hpc']; rfl))

/-- Elsewhere in `ring_buffer_op` nobody goes in or out. -/
theorem inside_step (hrun : q.step k = some q') (hexec : ∀ r max i, q.pc k ≠ .exec r max i) (hout : ¬q.Inside k) (k' : Nat) :
    q'.Inside k' ↔ q.Inside k' := by
  have hmove := step_move hrun
  obtain ⟨-, hothers, -⟩ := step_others hrun
  by_cases hk : k' = k
  · subst hk
    refine ⟨fun hin => ?_, fun hin => absurd hin hout⟩
    obtain ⟨r, max, i, hin⟩ := hin
    exfalso
    unfold Combining.Inside at hout
    generalize hp : q.pc k' = p at hmove hexec hout
    cases hmove with
    | exec r max i => exact hexec r max i rfl
    | inside r max i => exact hout ⟨r, max, i, rfl⟩
    | unlinked r max i => simp [hp] at hin
    | link oldTail =>
        dsimp only at hin
        rw [Function.update_self] at hin
        by_cases hwaits : q.nonBlocking k' = true <;> simp [hwaits] at hin
    | letGo r max i rNext =>
        dsimp only at hin
        rw [Function.update_self] at hin
        by_cases hi : i = 0 <;> simp [hi] at hin
    | _ => simp [Combining.goto] at hin
  · unfold Combining.Inside
    rw [hothers k' hk]

theorem Active.congr (h : Active q pcs idle p) (hsame : ∀ k, q'.Inside k ↔ q.Inside k) : Active q' pcs idle p :=
  ⟨fun k hk => h.inside k ((hsame k).mp hk), fun k hk => h.outside k fun hin => hk ((hsame k).mpr hin),
    fun hall => h.none fun k hk => hall k ((hsame k).mpr hk)⟩

/-- The combiner goes in. -/
theorem Active.enter (h : Active q pcs idle p) (p' : P) (hinv : CombineInv q gone queue) (hrun : q.step k = some q')
    (hpc : q.pc k = .exec r max i) : p = idle ∧ Active q' (Function.update pcs k p') idle p' := by
  have hat : q.serves k = some r := serves_of (by rw [hpc]; rfl)
  have hnobody : ∀ k', ¬q.Inside k' := by
    intro k' ⟨r', max', i', hin⟩
    have hk := hinv.one k' k r' r (serves_of (by rw [hin]; rfl)) hat
    rw [hk, hpc] at hin
    simp at hin
  obtain ⟨-, hothers, -⟩ := step_others hrun
  have hself : q'.pc k = .inside r max i := by
    have hmove := step_move hrun
    rw [hpc] at hmove
    cases hmove with
    | exec => exact Function.update_self _ _ _
  refine ⟨h.none hnobody, fun k' hk' => ?_, fun k' hk' => ?_, fun hall => absurd ⟨r, max, i, hself⟩ (hall k)⟩
  · by_cases hk : k' = k
    · rw [hk, Function.update_self]
    · unfold Combining.Inside at hk'
      rw [hothers k' hk] at hk'
      exact absurd hk' (hnobody k')
  · have hk : k' ≠ k := fun heq => hk' ⟨r, max, i, heq ▸ hself⟩
    rw [Function.update_of_ne hk]
    exact h.outside k' (hnobody k')

/-- It comes out. -/
theorem Active.exit (h : Active q pcs idle idle) (hinv : CombineInv q gone queue) (hrun : q.step k = some q')
    (hpc : q.pc k = .inside r max i) : Active q' pcs idle idle ∧ ∀ k', ¬q'.Inside k' := by
  obtain ⟨-, hothers, -⟩ := step_others hrun
  have hself : q'.pc k = .next r max i := by
    have hmove := step_move hrun
    rw [hpc] at hmove
    cases hmove with
    | inside => exact Function.update_self _ _ _
  have hnobody : ∀ k', ¬q'.Inside k' := by
    intro k' hin
    by_cases hk : k' = k
    · obtain ⟨r', max', i', hin⟩ := hin
      rw [hk, hself] at hin
      simp at hin
    · unfold Combining.Inside at hin
      rw [hothers k' hk] at hin
      exact hk (hinv.insideOne hin ⟨r, max, i, hpc⟩)
  refine ⟨⟨fun k' hk' => absurd hk' (hnobody k'), fun k' _ => ?_, fun _ => rfl⟩, hnobody⟩
  by_cases hin : q.Inside k'
  · exact h.inside k' hin
  · exact h.outside k' hin

/-- The one who is in goes on. -/
theorem Active.update (h : Active q pcs idle p) (hinv : CombineInv q gone queue) (hin : q.Inside k) :
    Active q (Function.update pcs k p') idle p' := by
  refine ⟨fun k' hk' => ?_, fun k' hk' => ?_, fun hall => absurd hin (hall k)⟩
  · rw [hinv.insideOne hk' hin, Function.update_self]
  · have hk : k' ≠ k := fun heq => hk' (heq ▸ hin)
    rw [Function.update_of_ne hk]
    exact h.outside k' hk'

end Active

/-! ### Puts do not see gets -/

section Frames

variable {s s' : Solros}

theorem putStep_get (get : GetPc) (hrun : s.putStep = some s') : Solros.putStep { s with get := get } = some { s' with get := get } := by
  unfold Solros.putStep at hrun ⊢
  cases hput : s.put with
  | reap req l =>
      rw [hput] at hrun
      dsimp only at hrun ⊢
      cases hturn : l.turn s.rb with
      | mk l' more =>
          cases more <;> rw [hturn] at hrun <;> rw [Option.some.injEq] at hrun <;> subst hrun <;> rfl
  | reapAggressively req l =>
      rw [hput] at hrun
      dsimp only at hrun ⊢
      cases hturn : l.turn s.rb with
      | mk l' more =>
          cases more <;> rw [hturn] at hrun <;> rw [Option.some.injEq] at hrun <;> subst hrun <;> rfl
  | checkTail req rbTail rbTail2 =>
      rw [hput, Option.some.injEq] at hrun
      subst hrun
      rfl
  | cas req rbTail rbTail2 =>
      rw [hput, Option.some.injEq] at hrun
      subst hrun
      rfl
  | idle =>
      rw [hput] at hrun
      simp at hrun
  | aggressive req n =>
      rw [hput, Option.some.injEq] at hrun
      subst hrun
      rfl
  | start req =>
      rw [hput] at hrun
      dsimp only at hrun ⊢
      by_cases hfree : s.rb.freeSpaceSize < s.rb.size
      · rw [if_pos hfree, Option.some.injEq] at hrun
        rw [if_pos hfree, ← hrun]
      · rw [if_neg hfree, Option.some.injEq] at hrun
        rw [if_neg hfree, ← hrun]
  | locate req =>
      rw [hput] at hrun
      dsimp only at hrun ⊢
      by_cases hfree : s.rb.freeSpaceSize < req.asize
      · rw [if_pos hfree, Option.some.injEq] at hrun
        rw [if_pos hfree, ← hrun]
      · rw [if_neg hfree, Option.some.injEq] at hrun
        rw [if_neg hfree, ← hrun]
        rfl
  | publish req elmAddr rbHead tombstone =>
      rw [hput] at hrun
      dsimp only at hrun ⊢
      cases tombstone <;> simp at hrun <;> subst hrun <;> rfl

theorem getStep_put (put : PutPc) (hrun : s.getStep = some s') : Solros.getStep { s with put := put } = some { s' with put := put } := by
  unfold Solros.getStep at hrun ⊢
  cases hget : s.get with
  | idle =>
      rw [hget] at hrun
      simp at hrun
  | _ =>
      rw [hget, Option.some.injEq] at hrun
      subst hrun
      simp

theorem putStep_keeps (hrun : s.putStep = some s') : s'.get = s.get := by
  have hsame := putStep_get s.get hrun
  rw [show ({ s with get := s.get } : Solros) = s from rfl, hrun, Option.some.injEq] at hsame
  rw [hsame]

theorem getStep_keeps (hrun : s.getStep = some s') : s'.put = s.put ∧ s'.sent = s.sent := by
  unfold Solros.getStep at hrun
  cases hget : s.get with
  | idle =>
      rw [hget] at hrun
      simp at hrun
  | _ =>
      rw [hget, Option.some.injEq] at hrun
      subst hrun
      exact ⟨rfl, rfl⟩

/-- A request of one who has an element. -/
def SolrosAct.isUser : SolrosAct → Bool
  | .request _ | .putStep | .requestGet | .getStep => false
  | _ => true

theorem map_payload_set {sent : List Enqueue} {k : Nat} {e e' : Enqueue} (he : sent[k]? = some e) (hsame : e'.payload = e.payload) :
    (sent.set k e').map Enqueue.payload = sent.map Enqueue.payload := by
  obtain ⟨hlt, he⟩ := List.getElem?_eq_some_iff.mp he
  rw [List.map_set, hsame, ← he, ← List.getElem_map Enqueue.payload]
  · exact List.set_getElem_self _
  · simpa using hlt

/-- Users do not see where a put or a get is, and leave what was put. -/
theorem user_frame {a : SolrosAct} (put : PutPc) (get : GetPc) (huser : a.isUser = true) (hrun : a.run s = some s') :
    a.run { s with put := put, get := get } = some { s' with put := put, get := get } ∧ s'.put = s.put ∧ s'.get = s.get ∧
      s'.sent.map Enqueue.payload = s.sent.map Enqueue.payload := by
  cases a with
  | request payload => simp [SolrosAct.isUser] at huser
  | putStep => simp [SolrosAct.isUser] at huser
  | requestGet => simp [SolrosAct.isUser] at huser
  | getStep => simp [SolrosAct.isUser] at huser
  | copyTo k i =>
      unfold SolrosAct.run Solros.copyTo at hrun ⊢
      dsimp only at hrun ⊢
      cases he : s.sent[k]? with
      | none => simp [he] at hrun
      | some e =>
          rw [he] at hrun
          dsimp only at hrun ⊢
          cases hphase : e.phase with
          | settingReady st => simp [hphase] at hrun
          | ready => simp [hphase] at hrun
          | copying =>
              cases hb : e.payload[i]? with
              | none => simp [hphase, hb] at hrun
              | some b =>
                  rw [hphase, hb, Option.some.injEq] at hrun
                  subst hrun
                  exact ⟨rfl, rfl, rfl, map_payload_set he rfl⟩
  | loadReady k =>
      unfold SolrosAct.run Solros.loadReady at hrun ⊢
      dsimp only at hrun ⊢
      cases he : s.sent[k]? with
      | none => simp [he] at hrun
      | some e =>
          rw [he] at hrun
          dsimp only at hrun ⊢
          by_cases hc : e.phase = .copying ∧ e.copied = Finset.range e.payload.length
          · rw [if_pos hc, Option.some.injEq] at hrun
            subst hrun
            rw [if_pos hc]
            exact ⟨rfl, rfl, rfl, map_payload_set he rfl⟩
          · rw [if_neg hc] at hrun
            simp at hrun
  | storeReady k =>
      unfold SolrosAct.run Solros.storeReady at hrun ⊢
      dsimp only at hrun ⊢
      cases he : s.sent[k]? with
      | none => simp [he] at hrun
      | some e =>
          rw [he] at hrun
          dsimp only at hrun ⊢
          cases hphase : e.phase with
          | copying => simp [hphase] at hrun
          | ready => simp [hphase] at hrun
          | settingReady st =>
              rw [hphase, Option.some.injEq] at hrun
              subst hrun
              exact ⟨rfl, rfl, rfl, map_payload_set he rfl⟩
  | copyFrom k i =>
      unfold SolrosAct.run Solros.copyFrom at hrun ⊢
      dsimp only at hrun ⊢
      cases hr : s.received[k]? with
      | none => simp [hr] at hrun
      | some r =>
          rw [hr] at hrun
          dsimp only at hrun ⊢
          by_cases hc : r.phase = .copying ∧ i < r.size
          · rw [if_pos hc, Option.some.injEq] at hrun
            subst hrun
            rw [if_pos hc]
            exact ⟨rfl, rfl, rfl, rfl⟩
          · rw [if_neg hc] at hrun
            simp at hrun
  | loadDone k =>
      unfold SolrosAct.run Solros.loadDone at hrun ⊢
      dsimp only at hrun ⊢
      cases hr : s.received[k]? with
      | none => simp [hr] at hrun
      | some r =>
          rw [hr] at hrun
          dsimp only at hrun ⊢
          by_cases hc : r.phase = .copying
          · rw [if_pos hc, Option.some.injEq] at hrun
            subst hrun
            rw [if_pos hc]
            exact ⟨rfl, rfl, rfl, rfl⟩
          · rw [if_neg hc] at hrun
            simp at hrun
  | storeTombstone k =>
      unfold SolrosAct.run Solros.storeTombstone at hrun ⊢
      dsimp only at hrun ⊢
      cases hr : s.received[k]? with
      | none => simp [hr] at hrun
      | some r =>
          rw [hr] at hrun
          dsimp only at hrun ⊢
          by_cases hc : r.phase = .settingTombstone
          · rw [if_pos hc, Option.some.injEq] at hrun
            subst hrun
            rw [if_pos hc]
            exact ⟨rfl, rfl, rfl, rfl⟩
          · rw [if_neg hc] at hrun
            simp at hrun
  | storeDone k =>
      unfold SolrosAct.run Solros.storeDone at hrun ⊢
      dsimp only at hrun ⊢
      cases hr : s.received[k]? with
      | none => simp [hr] at hrun
      | some r =>
          rw [hr] at hrun
          dsimp only at hrun ⊢
          by_cases hc : r.phase = .settingDone
          · rw [if_pos hc, Option.some.injEq] at hrun
            subst hrun
            rw [if_pos hc]
            exact ⟨rfl, rfl, rfl, rfl⟩
          · rw [if_neg hc] at hrun
            simp at hrun

/-- The request of a put. -/
def PutPc.req : PutPc → Option PutReq
  | .idle => none
  | .start req | .reap req _ | .aggressive req _ | .reapAggressively req _ | .checkTail req _ _ | .cas req _ _ | .locate req
  | .publish req _ _ _ => some req

/-- A put that goes on has the same payload; one that ends has put it, or has put nothing. -/
theorem putStep_sent (hrun : s.putStep = some s') : ∃ req, s.put.req = some req ∧
    ((s'.sent = s.sent ∧ (s'.put = .idle ∨ ∃ req', s'.put.req = some req' ∧ req'.payload = req.payload)) ∨
      (s'.put = .idle ∧ ∃ e : Enqueue, s'.sent = s.sent ++ [e] ∧ e.payload = req.payload)) := by
  unfold Solros.putStep at hrun
  cases hput : s.put with
  | idle =>
      rw [hput] at hrun
      simp at hrun
  | reap req l =>
      rw [hput] at hrun
      dsimp only at hrun
      refine ⟨req, rfl, Or.inl ?_⟩
      cases hturn : l.turn s.rb with
      | mk l' more =>
          cases more with
          | true =>
              rw [hturn, Option.some.injEq] at hrun
              subst hrun
              exact ⟨rfl, Or.inr ⟨req, rfl, rfl⟩⟩
          | false =>
              rw [hturn, Option.some.injEq] at hrun
              subst hrun
              refine ⟨rfl, Or.inr ⟨req, ?_, rfl⟩⟩
              unfold Solros.reaped
              dsimp only
              by_cases hfree : SolrosRing.freeSpaceSize { s.rb with tail2 := l'.rbTail2 } < s.rb.size
              · rw [if_pos hfree]
                rfl
              · rw [if_neg hfree]
                rfl
  | reapAggressively req l =>
      rw [hput] at hrun
      dsimp only at hrun
      refine ⟨req, rfl, Or.inl ?_⟩
      cases hturn : l.turn s.rb with
      | mk l' more =>
          cases more with
          | true =>
              rw [hturn, Option.some.injEq] at hrun
              subst hrun
              exact ⟨rfl, Or.inr ⟨req, rfl, rfl⟩⟩
          | false =>
              rw [hturn, Option.some.injEq] at hrun
              subst hrun
              refine ⟨rfl, Or.inr ⟨req, ?_, rfl⟩⟩
              unfold Solros.reapedAggressively
              dsimp only
              by_cases hchanged : l'.changedTail = true
              · rw [if_pos hchanged]
                rfl
              · rw [if_neg hchanged]
                rfl
  | start req =>
      rw [hput] at hrun
      dsimp only at hrun
      refine ⟨req, rfl, Or.inl ?_⟩
      by_cases hfree : s.rb.freeSpaceSize < s.rb.size
      · rw [if_pos hfree, Option.some.injEq] at hrun
        subst hrun
        exact ⟨rfl, Or.inr ⟨req, rfl, rfl⟩⟩
      · rw [if_neg hfree, Option.some.injEq] at hrun
        subst hrun
        exact ⟨rfl, Or.inr ⟨req, rfl, rfl⟩⟩
  | aggressive req n =>
      rw [hput, Option.some.injEq] at hrun
      subst hrun
      exact ⟨req, rfl, Or.inl ⟨rfl, Or.inr ⟨req, rfl, rfl⟩⟩⟩
  | checkTail req rbTail rbTail2 =>
      rw [hput, Option.some.injEq] at hrun
      subst hrun
      refine ⟨req, rfl, Or.inl ⟨rfl, Or.inr ⟨req, ?_, rfl⟩⟩⟩
      dsimp only
      by_cases hsame : s.rb.tail = rbTail
      · rw [if_pos hsame]
        rfl
      · rw [if_neg hsame]
        rfl
  | cas req rbTail rbTail2 =>
      rw [hput, Option.some.injEq] at hrun
      subst hrun
      exact ⟨req, rfl, Or.inl ⟨rfl, Or.inr ⟨req, rfl, rfl⟩⟩⟩
  | locate req =>
      rw [hput] at hrun
      dsimp only at hrun
      refine ⟨req, rfl, Or.inl ?_⟩
      by_cases hfree : s.rb.freeSpaceSize < req.asize
      · rw [if_pos hfree, Option.some.injEq] at hrun
        subst hrun
        exact ⟨rfl, Or.inl rfl⟩
      · rw [if_neg hfree, Option.some.injEq] at hrun
        subst hrun
        refine ⟨rfl, Or.inr ⟨_, rfl, ?_⟩⟩
        split <;> rfl
  | publish req elmAddr rbHead tombstone =>
      rw [hput] at hrun
      dsimp only at hrun
      refine ⟨req, rfl, ?_⟩
      cases tombstone with
      | true =>
          rw [if_pos rfl, Option.some.injEq] at hrun
          subst hrun
          exact Or.inl ⟨rfl, Or.inr ⟨req, rfl, rfl⟩⟩
      | false =>
          rw [if_neg Bool.false_ne_true, Option.some.injEq] at hrun
          subst hrun
          exact Or.inr ⟨rfl, _, rfl, rfl⟩

end Frames

/-! ### The ring as one of each kind sees it -/

/-- One who puts and one who gets. -/
def SolrosCalls.single (s : SolrosCalls) (p : PutPc) (g : GetPc) : Solros := { s.ring with put := p, get := g }

def SolrosCallsStep (s : SolrosCalls) (a : SolrosCallsAct) (s' : SolrosCalls) : Prop := a.run s = some s'

/-- A step of a put is none that overtakes a get. -/
def SolrosCallsAct.Keeps (s : SolrosCalls) (a : SolrosCallsAct) : Prop := ∀ k k', a = .putStep k → s.overtakes k k' = false

/-- The invariant; `p` and `g` are where the put and the get in `exec_op` are. -/
structure CallsInv (s : SolrosCalls) (p : PutPc) (g : GetPc) : Prop where
  putReq : ∃ gone queue, CombineInv s.putReq gone queue
  getReq : ∃ gone queue, CombineInv s.getReq gone queue
  put : Active s.putReq s.putPc .idle p
  get : Active s.getReq s.getPc .idle g
  idle : s.ring.put = .idle ∧ s.ring.get = .idle
  outside : (∀ k, ¬s.putReq.Inside k) → (s.ring.sent.map Enqueue.payload).Sublist (s.putReq.executed.map s.payload)
  inside : ∀ k r max i, s.putReq.pc k = .inside r max i →
    (p = .idle → (s.ring.sent.map Enqueue.payload).Sublist ((s.putReq.executed ++ [r]).map s.payload)) ∧
      ∀ req, p.req = some req →
        (s.ring.sent.map Enqueue.payload).Sublist (s.putReq.executed.map s.payload) ∧ req.payload = s.payload r

section Calls

variable {s s' : SolrosCalls} {p : PutPc} {g : GetPc} {k : Nat}

theorem inside_call {q q' : Combining} {nonBlocking : Bool} (hrun : q.call k nonBlocking = some q') :
    q.pc k = .idle ∧ q'.executed = q.executed ∧ ∀ k', q'.pc k' = if k' = k then .ask else q.pc k' := by
  unfold Combining.call at hrun
  cases hp : q.pc k with
  | idle =>
      rw [hp, Option.some.injEq] at hrun
      subst hrun
      exact ⟨rfl, rfl, fun k' => Function.update_apply _ _ _ _⟩
  | _ =>
      rw [hp] at hrun
      simp at hrun

theorem executed_step {q q' : Combining} (hrun : q.step k = some q') (hout : ¬q.Inside k) : q'.executed = q.executed := by
  have hmove := step_move hrun
  unfold Combining.Inside at hout
  generalize q.pc k = pc at hmove hout
  cases hmove with
  | inside r max i => exact absurd ⟨r, max, i, rfl⟩ hout
  | _ => rfl

theorem callsInv_new (rb : SolrosRing) : CallsInv (.new rb) .idle .idle := by
  have hnone : ∀ k, ¬Combining.new.Inside k := by
    intro k ⟨r, max, i, hin⟩
    simp [Combining.new] at hin
  refine ⟨⟨[], [], combineInv_new⟩, ⟨[], [], combineInv_new⟩, ⟨fun k hk => absurd hk (hnone k), fun _ _ => rfl, fun _ => rfl⟩,
    ⟨fun k hk => absurd hk (hnone k), fun _ _ => rfl, fun _ => rfl⟩, ⟨rfl, rfl⟩, fun _ => List.Sublist.refl _, ?_⟩
  intro k r max i hin
  exact absurd ⟨r, max, i, hin⟩ (hnone k)

/-- A request is queued. -/
theorem CallsInv.callPut {payload : List UInt8} {nonBlocking : Bool} (h : CallsInv s p g)
    (hrun : s.put k payload nonBlocking = some s') : CallsInv s' p g ∧ s'.single p g = s.single p g := by
  obtain ⟨gone, queue, hinv⟩ := h.putReq
  unfold SolrosCalls.put at hrun
  by_cases hmax : s.ring.rb.size < s.ring.rb.putAlignSize payload.length
  · rw [if_pos hmax] at hrun
    simp at hrun
  · rw [if_neg hmax] at hrun
    cases hcall : s.putReq.call k nonBlocking with
    | none => simp [hcall] at hrun
    | some q =>
        rw [hcall, Option.some.injEq] at hrun
        subst hrun
        obtain ⟨hidle, hexec, hpcs⟩ := inside_call hcall
        have hnew : k ∉ s.putReq.asked := (hinv.called k).mpr (Or.inl hidle)
        have hin : ∀ k' r max i, q.pc k' = .inside r max i ↔ s.putReq.pc k' = .inside r max i := by
          intro k' r max i
          rw [hpcs]
          by_cases hk : k' = k
          · rw [if_pos hk, hk, hidle]
            simp
          · rw [if_neg hk]
        have hsame : ∀ k', q.Inside k' ↔ s.putReq.Inside k' := by
          intro k'
          unfold Combining.Inside
          simp only [hin]
        have hold : ∀ r, r ∈ s.putReq.asked → Function.update s.payload k payload r = s.payload r := fun r hr =>
          Function.update_of_ne (fun heq : r = k => hnew (heq ▸ hr)) _ _
        have hmap : q.executed.map (Function.update s.payload k payload) = s.putReq.executed.map s.payload := by
          rw [hexec]
          exact List.map_congr_left fun r hr => hold r (hinv.ok.order.subset hr)
        refine ⟨⟨⟨gone, queue, hinv.call hcall⟩, h.getReq, h.put.congr hsame, h.get, h.idle, fun hall => ?_, ?_⟩, rfl⟩
        · dsimp only
          rw [hmap]
          exact h.outside fun k' hk' => hall k' ((hsame k').mpr hk')
        · intro k' r max i hpc
          have hpc' := (hin k' r max i).mp hpc
          have hr := (hinv.mem_asked (serves_of (show (s.putReq.pc k').at = some r by rw [hpc']; rfl))).2
          obtain ⟨hdone, hreq⟩ := h.inside k' r max i hpc'
          dsimp only
          rw [List.map_append, hmap, List.map_singleton, hold r hr]
          rw [List.map_append, List.map_singleton] at hdone
          exact ⟨hdone, hreq⟩

theorem CallsInv.callGet {nonBlocking : Bool} (h : CallsInv s p g) (hrun : s.get k nonBlocking = some s') :
    CallsInv s' p g ∧ s'.single p g = s.single p g := by
  obtain ⟨gone, queue, hinv⟩ := h.getReq
  unfold SolrosCalls.get at hrun
  cases hcall : s.getReq.call k nonBlocking with
  | none => simp [hcall] at hrun
  | some q =>
      rw [hcall, Option.some.injEq] at hrun
      subst hrun
      obtain ⟨hidle, hexec, hpcs⟩ := inside_call hcall
      have hsame : ∀ k', q.Inside k' ↔ s.getReq.Inside k' := by
        intro k'
        unfold Combining.Inside
        rw [hpcs]
        by_cases hk : k' = k
        · rw [if_pos hk, hk, hidle]
          simp
        · rw [if_neg hk]
      exact ⟨⟨h.putReq, ⟨gone, queue, hinv.call hcall⟩, h.put, h.get.congr hsame, h.idle, h.outside, h.inside⟩, rfl⟩

theorem request_idle {t t' : Solros} {payload : List UInt8} (hidle : t.put = .idle) (hrun : t.request payload = some t') {g : GetPc} :
    Solros.request { t with put := .idle, get := g } payload = some { t' with get := g } ∧
      t'.put = .start ⟨payload, t.rb.putAlignSize payload.length, elmStatusInit⟩ ∧ t' = { t with put := t'.put } := by
  unfold Solros.request at hrun ⊢
  rw [hidle] at hrun
  dsimp only at hrun ⊢
  by_cases hmax : t.rb.size < t.rb.putAlignSize payload.length
  · rw [if_pos hmax] at hrun
    simp at hrun
  · rw [if_neg hmax, Option.some.injEq] at hrun
    subst hrun
    rw [if_neg hmax]
    exact ⟨rfl, rfl, rfl⟩

/-- A combiner begins with a request. -/
theorem CallsInv.enterPut {r max i : Nat} {q : Combining} {ring : Solros} (h : CallsInv s p g) (hpc : s.putReq.pc k = .exec r max i)
    (hstep : s.putReq.step k = some q) (hreq : s.ring.request (s.payload r) = some ring) :
    CallsInv { s with putReq := q, putPc := Function.update s.putPc k ring.put } ring.put g ∧
      (s.single p g).request (s.payload r) = some (s.single ring.put g) := by
  obtain ⟨gone, queue, hinv⟩ := h.putReq
  obtain ⟨gone', queue', hinv'⟩ := hinv.step hstep
  obtain ⟨hp, hactive⟩ := h.put.enter ring.put hinv hstep hpc
  obtain ⟨hsingle, hput, hring⟩ := request_idle h.idle.1 hreq (g := g)
  have hat : s.putReq.serves k = some r := serves_of (by rw [hpc]; rfl)
  have hnobody : ∀ k', ¬s.putReq.Inside k' := by
    intro k' ⟨r', max', i', hin⟩
    have hk := hinv.one k' k r' r (serves_of (by rw [hin]; rfl)) hat
    rw [hk, hpc] at hin
    simp at hin
  have hself : q.pc k = .inside r max i := by
    have hmove := step_move hstep
    rw [hpc] at hmove
    cases hmove with
    | exec => exact Function.update_self _ _ _
  refine ⟨⟨⟨gone', queue', hinv'⟩, h.getReq, hactive, h.get, h.idle, fun hall => absurd ⟨r, max, i, hself⟩ (hall k), ?_⟩, ?_⟩
  · intro k' r' max' i' hin
    have hk : k' = k := hinv'.insideOne ⟨r', max', i', hin⟩ ⟨r, max, i, hself⟩
    rw [hk, hself, CombinePc.inside.injEq] at hin
    refine ⟨fun hidle => ?_, fun req hr => ?_⟩
    · rw [hput] at hidle
      simp at hidle
    · rw [hput, PutPc.req, Option.some.injEq] at hr
      dsimp only
      rw [executed_step hstep (hnobody k), ← hr, ← hin.1]
      exact ⟨h.outside hnobody, rfl⟩
  · rw [hp]
    refine hsingle.trans (congrArg some ?_)
    rw [hring]
    rfl

/-- A combiner is through with a request. -/
theorem CallsInv.exitPut {r max i : Nat} {q : Combining} (h : CallsInv s p g) (hpc : s.putReq.pc k = .inside r max i)
    (hstep : s.putReq.step k = some q) (hidle : s.putPc k = .idle) : CallsInv { s with putReq := q } p g := by
  obtain ⟨gone, queue, hinv⟩ := h.putReq
  have hp : p = .idle := by rw [← h.put.inside k ⟨r, max, i, hpc⟩, hidle]
  subst hp
  obtain ⟨hactive, hnobody⟩ := h.put.exit hinv hstep hpc
  have hexec : q.executed = s.putReq.executed ++ [r] := by
    have hmove := step_move hstep
    rw [hpc] at hmove
    cases hmove with
    | inside => rfl
  refine ⟨hinv.step hstep, h.getReq, hactive, h.get, h.idle, fun _ => ?_, fun k' r' max' i' hin => absurd ⟨r', max', i', hin⟩ (hnobody k')⟩
  dsimp only
  rw [hexec]
  exact (h.inside k r max i hpc).1 rfl

/-- The queue of the puts goes on otherwise. -/
theorem CallsInv.queuePut {q : Combining} (h : CallsInv s p g) (hstep : s.putReq.step k = some q)
    (hexec : ∀ r max i, s.putReq.pc k ≠ .exec r max i) (hout : ¬s.putReq.Inside k) : CallsInv { s with putReq := q } p g := by
  obtain ⟨gone, queue, hinv⟩ := h.putReq
  have hsame := inside_step hstep hexec hout
  have hdone := executed_step hstep hout
  refine ⟨hinv.step hstep, h.getReq, h.put.congr hsame, h.get, h.idle, fun hall => ?_, fun k' r max i hin => ?_⟩
  · dsimp only
    rw [hdone]
    exact h.outside fun k' hk' => hall k' ((hsame k').mpr hk')
  · have hk : k' ≠ k := fun heq => hout ((hsame k).mp ⟨r, max, i, heq ▸ hin⟩)
    dsimp only at hin ⊢
    rw [(step_others hstep).2.1 k' hk] at hin
    rw [hdone]
    exact h.inside k' r max i hin

/-- A step of the queue of the puts. -/
theorem CallsInv.putOp (h : CallsInv s p g) (hrun : s.putOp k = some s') :
    ∃ p', CallsInv s' p' g ∧ (s'.single p' g = s.single p g ∨ ∃ payload, (s.single p g).request payload = some (s'.single p' g)) := by
  unfold SolrosCalls.putOp at hrun
  cases hstep : s.putReq.step k with
  | none => simp [hstep] at hrun
  | some q =>
      rw [hstep] at hrun
      dsimp only at hrun
      cases hpc : s.putReq.pc k with
      | exec r max i =>
          rw [hpc] at hrun
          dsimp only at hrun
          cases hreq : s.ring.request (s.payload r) with
          | none => simp [hreq] at hrun
          | some ring =>
              rw [hreq, Option.some.injEq] at hrun
              subst hrun
              obtain ⟨hnew, hsingle⟩ := h.enterPut hpc hstep hreq
              exact ⟨ring.put, hnew, Or.inr ⟨s.payload r, hsingle⟩⟩
      | inside r max i =>
          rw [hpc] at hrun
          dsimp only at hrun
          by_cases hidle : s.putPc k = .idle
          · rw [if_pos hidle, Option.some.injEq] at hrun
            subst hrun
            exact ⟨p, h.exitPut hpc hstep hidle, Or.inl rfl⟩
          · rw [if_neg hidle] at hrun
            simp at hrun
      | _ =>
          rw [hpc, Option.some.injEq] at hrun
          subst hrun
          refine ⟨p, h.queuePut hstep (by simp [hpc]) (fun hin => ?_), Or.inl rfl⟩
          obtain ⟨r, max, i, hin⟩ := hin
          simp [hpc] at hin

/-- A step of a put. -/
theorem CallsInv.putStep (h : CallsInv s p g) (hrun : s.putStep k = some s') :
    ∃ p', CallsInv s' p' g ∧ p = s.putPc k ∧ (s.single p g).putStep = some (s'.single p' g) := by
  obtain ⟨gone, queue, hinv⟩ := h.putReq
  unfold SolrosCalls.putStep at hrun
  cases hstep : Solros.putStep { s.ring with put := s.putPc k } with
  | none => simp [hstep] at hrun
  | some ring =>
      rw [hstep, Option.some.injEq] at hrun
      subst hrun
      obtain ⟨req, hreq, hsent⟩ := putStep_sent hstep
      have hin : s.putReq.Inside k := by
        by_contra hout
        have hidle := h.put.outside k hout
        rw [hidle] at hreq
        simp [PutPc.req] at hreq
      have hp : p = s.putPc k := (h.put.inside k hin).symm
      refine ⟨ring.put, ⟨h.putReq, h.getReq, h.put.update hinv hin, h.get, ⟨rfl, ?_⟩, fun hall => absurd hin (hall k), ?_⟩, hp, ?_⟩
      · exact (putStep_keeps hstep).trans h.idle.2
      · intro k' r max i hpc
        obtain ⟨-, hold⟩ := h.inside k' r max i hpc
        obtain ⟨hsub, hpay⟩ := hold req (hp ▸ hreq)
        dsimp only
        rcases hsent with ⟨hsame, hnext⟩ | ⟨hidle, e, happend, hpayload⟩
        · dsimp only at hsame
          rw [hsame]
          refine ⟨fun _ => ?_, fun req' hr' => ⟨hsub, ?_⟩⟩
          · rw [List.map_append]
            exact hsub.trans (List.sublist_append_left _ _)
          · rcases hnext with hidle | ⟨req'', hr'', hpay'⟩
            · rw [hidle] at hr'
              simp [PutPc.req] at hr'
            · rw [hr'', Option.some.injEq] at hr'
              rw [← hr', hpay', hpay]
        · dsimp only at happend
          rw [happend]
          refine ⟨fun _ => ?_, fun req' hr' => ?_⟩
          · rw [List.map_append, List.map_append, List.map_singleton, List.map_singleton, hpayload, hpay]
            exact hsub.append (List.Sublist.refl _)
          · rw [hidle] at hr'
            simp [PutPc.req] at hr'
      · rw [hp]
        exact (putStep_get g hstep).trans rfl

/-- A step of the queue of the gets. -/
theorem CallsInv.getOp (h : CallsInv s p g) (hrun : s.getOp k = some s') :
    ∃ g', CallsInv s' p g' ∧ (s'.single p g' = s.single p g ∨ (s.single p g).requestGet = some (s'.single p g')) := by
  obtain ⟨gone, queue, hinv⟩ := h.getReq
  unfold SolrosCalls.getOp at hrun
  cases hstep : s.getReq.step k with
  | none => simp [hstep] at hrun
  | some q =>
      rw [hstep] at hrun
      dsimp only at hrun
      cases hpc : s.getReq.pc k with
      | exec r max i =>
          rw [hpc] at hrun
          unfold Solros.requestGet at hrun
          rw [h.idle.2, Option.some.injEq] at hrun
          subst hrun
          obtain ⟨hg, hactive⟩ := h.get.enter .empty hinv hstep hpc
          refine ⟨.empty, ⟨h.putReq, hinv.step hstep, h.put, hactive, h.idle, h.outside, h.inside⟩, Or.inr ?_⟩
          rw [hg]
          rfl
      | inside r max i =>
          rw [hpc] at hrun
          dsimp only at hrun
          by_cases hidle : s.getPc k = .idle
          · rw [if_pos hidle, Option.some.injEq] at hrun
            subst hrun
            have hg : g = .idle := by rw [← h.get.inside k ⟨r, max, i, hpc⟩, hidle]
            subst hg
            exact ⟨.idle, ⟨h.putReq, hinv.step hstep, h.put, (h.get.exit hinv hstep hpc).1, h.idle, h.outside, h.inside⟩, Or.inl rfl⟩
          · rw [if_neg hidle] at hrun
            simp at hrun
      | _ =>
          rw [hpc, Option.some.injEq] at hrun
          subst hrun
          have hout : ¬s.getReq.Inside k := by
            intro ⟨r, max, i, hin⟩
            simp [hpc] at hin
          exact ⟨g, ⟨h.putReq, hinv.step hstep, h.put, h.get.congr (inside_step hstep (by simp [hpc]) hout), h.idle, h.outside, h.inside⟩,
            Or.inl rfl⟩

/-- A step of a get. -/
theorem CallsInv.getStep (h : CallsInv s p g) (hrun : s.getStep k = some s') :
    ∃ g', CallsInv s' p g' ∧ (s.single p g).getStep = some (s'.single p g') := by
  obtain ⟨gone, queue, hinv⟩ := h.getReq
  unfold SolrosCalls.getStep at hrun
  cases hstep : Solros.getStep { s.ring with get := s.getPc k } with
  | none => simp [hstep] at hrun
  | some ring =>
      rw [hstep, Option.some.injEq] at hrun
      subst hrun
      have hin : s.getReq.Inside k := by
        by_contra hout
        rw [h.get.outside k hout] at hstep
        simp [Solros.getStep] at hstep
      have hg : g = s.getPc k := (h.get.inside k hin).symm
      obtain ⟨hput, hsent⟩ := getStep_keeps hstep
      refine ⟨ring.get, ⟨h.putReq, h.getReq, h.put, h.get.update hinv hin, ⟨hput.trans h.idle.1, rfl⟩, ?_, ?_⟩, ?_⟩
      · dsimp only
        rw [hsent]
        exact h.outside
      · dsimp only
        rw [hsent]
        exact h.inside
      · rw [hg]
        exact (getStep_put p hstep).trans rfl

/-- A step of one who has an element. -/
theorem CallsInv.user {a : SolrosAct} (h : CallsInv s p g) (hrun : s.user a = some s') :
    CallsInv s' p g ∧ a ≠ .putStep ∧ a.run (s.single p g) = some (s'.single p g) := by
  obtain ⟨huser, ring, hring, hs'⟩ : a.isUser = true ∧ ∃ ring, a.run s.ring = some ring ∧ s' = { s with ring := ring } := by
    unfold SolrosCalls.user at hrun
    cases hring : a.run s.ring with
    | none => cases a <;> simp [hring] at hrun
    | some ring =>
        cases a <;> simp [hring] at hrun <;> exact ⟨rfl, ring, rfl, hrun.symm⟩
  obtain ⟨hsingle, hput, hget, hsent⟩ := user_frame p g huser hring
  subst hs'
  refine ⟨⟨h.putReq, h.getReq, h.put, h.get, ⟨hput.trans h.idle.1, hget.trans h.idle.2⟩, ?_, ?_⟩, ?_, hsingle⟩
  · dsimp only
    rw [hsent]
    exact h.outside
  · dsimp only
    rw [hsent]
    exact h.inside
  · intro heq
    rw [heq] at huser
    simp [SolrosAct.isUser] at huser

/-- **Each step of the many is a step of the single ones, or none of theirs.** -/
theorem CallsInv.step {a : SolrosCallsAct} (h : CallsInv s p g) (hguard : a.Keeps s) (hrun : SolrosCallsStep s a s') :
    ∃ p' g', CallsInv s' p' g' ∧ (s'.single p' g' = s.single p g ∨
      ∃ b, Guarded SolrosAct.Keeps SolrosStep (s.single p g) b (s'.single p' g')) := by
  unfold SolrosCallsStep SolrosCallsAct.run at hrun
  cases a with
  | put k payload nonBlocking =>
      obtain ⟨hnew, hsame⟩ := h.callPut hrun
      exact ⟨p, g, hnew, Or.inl hsame⟩
  | putOp k =>
      obtain ⟨p', hnew, hsingle⟩ := h.putOp hrun
      exact ⟨p', g, hnew, hsingle.imp id fun ⟨payload, hreq⟩ => ⟨.request payload, nofun, hreq⟩⟩
  | putStep k =>
      obtain ⟨p', hnew, hp, hstep⟩ := h.putStep hrun
      refine ⟨p', g, hnew, Or.inr ⟨.putStep, fun _ => ?_, hstep⟩⟩
      -- a get that is in the way is that of some call
      by_cases hin : ∃ k', s.getReq.Inside k'
      · obtain ⟨k', hin⟩ := hin
        have hk := hguard k k' rfl
        unfold SolrosCalls.overtakes at hk
        rw [← hp, h.get.inside k' hin] at hk
        exact hk
      · have hg := h.get.none fun k' hk' => hin ⟨k', hk'⟩
        subst hg
        unfold Solros.overtakes SolrosCalls.single
        cases p <;> rfl
  | get k nonBlocking =>
      obtain ⟨hnew, hsame⟩ := h.callGet hrun
      exact ⟨p, g, hnew, Or.inl hsame⟩
  | getOp k =>
      obtain ⟨g', hnew, hsingle⟩ := h.getOp hrun
      exact ⟨p, g', hnew, hsingle.imp id fun hreq => ⟨.requestGet, nofun, hreq⟩⟩
  | getStep k =>
      obtain ⟨g', hnew, hstep⟩ := h.getStep hrun
      exact ⟨p, g', hnew, Or.inr ⟨.getStep, nofun, hstep⟩⟩
  | user a =>
      obtain ⟨hnew, hne, hstep⟩ := h.user hrun
      exact ⟨p, g, hnew, Or.inr ⟨a, fun heq => absurd heq hne, hstep⟩⟩

end Calls

/-! ### Runs -/

/-- What all who use the ring rely on. -/
structure SolrosCallsOk (align size : Nat) (s : SolrosCalls) : Prop where
  ring : SolrosOk align size s.ring
  putReq : CombineOk s.putReq
  getReq : CombineOk s.getReq
  /-- One put is in the ring at a time, -/
  putAlone : ∀ k k', s.putPc k ≠ .idle → s.putPc k' ≠ .idle → k = k'
  /-- and one get. -/
  getAlone : ∀ k k', s.getPc k ≠ .idle → s.getPc k' ≠ .idle → k = k'
  /-- What is put is put in the order of the swaps. -/
  order : (s.ring.sent.map Enqueue.payload).Sublist (s.putReq.asked.map s.payload)

theorem CallsInv.order {s : SolrosCalls} {p : PutPc} {g : GetPc} (h : CallsInv s p g) :
    (s.ring.sent.map Enqueue.payload).Sublist (s.putReq.asked.map s.payload) := by
  obtain ⟨gone, queue, hinv⟩ := h.putReq
  by_cases hin : ∃ k, s.putReq.Inside k
  · obtain ⟨k, r, max, i, hpc⟩ := hin
    obtain ⟨hdone, hmore⟩ := h.inside k r max i hpc
    obtain ⟨hhead, hexec⟩ := hinv.serves k r (serves_of (by rw [hpc]; rfl))
    obtain ⟨q, rfl⟩ := List.head?_eq_some_iff.mp hhead
    have hsub : (s.ring.sent.map Enqueue.payload).Sublist ((s.putReq.executed ++ [r]).map s.payload) := by
      cases hreq : p.req with
      | none => exact hdone (by cases p <;> simp [PutPc.req] at hreq; rfl)
      | some req =>
          rw [List.map_append]
          exact (hmore req hreq).1.trans (List.sublist_append_left _ _)
    refine hsub.trans (List.Sublist.map _ ?_)
    rw [hexec, hpc, hinv.asked]
    simp [CombinePc.after]
  · exact (h.outside fun k hk => hin ⟨k, hk⟩).trans (List.Sublist.map _ hinv.ok.order.sublist)

section Runs

variable {rb : SolrosRing} {memory : Lib.ByteMem} {s : SolrosCalls} {align sizeHint rand : Nat}

/-- The many make the run of single ones. -/
theorem callsInv_run (hrun : Runs (Guarded SolrosCallsAct.Keeps SolrosCallsStep) (.new rb) s) :
    ∃ p g, CallsInv s p g ∧ Runs (Guarded SolrosAct.Keeps SolrosStep) (.new rb) (s.single p g) := by
  have hkeep : ∀ s a t, (∃ p g, CallsInv s p g ∧ Runs (Guarded SolrosAct.Keeps SolrosStep) (.new rb) (s.single p g)) →
      Guarded SolrosCallsAct.Keeps SolrosCallsStep s a t →
      ∃ p g, CallsInv t p g ∧ Runs (Guarded SolrosAct.Keeps SolrosStep) (.new rb) (t.single p g) := by
    intro s a t ⟨p, g, h, hsingle⟩ ⟨hguard, hstep⟩
    obtain ⟨p', g', h', hmove⟩ := h.step hguard hstep
    refine ⟨p', g', h', ?_⟩
    rcases hmove with hsame | ⟨b, hb⟩
    · rw [hsame]
      exact hsingle
    · exact hsingle.tail hb
  exact hrun.invariant hkeep ⟨.idle, .idle, callsInv_new rb, Runs.refl _⟩

/-- **However many put and get at once.** -/
theorem solrosCalls_run (hcreate : solrosRingBufferCreate sizeHint align rand (some memory) = .ok rb) (hlo : 8 ≤ align)
    (hhi : align ≤ 4096) (hsmall : rb.size < 2 ^ 32)
    (hrun : Runs (Guarded SolrosCallsAct.Keeps SolrosCallsStep) (.new rb) s) : SolrosCallsOk align rb.size s := by
  obtain ⟨p, g, h, hsingle⟩ := callsInv_run hrun
  obtain ⟨⟨l, hinv⟩, hmask, hsize⟩ := solrosInv_run hcreate hlo hhi hsmall hsingle
  obtain ⟨hfifo, hinside, hapart, hstored, hready, hdone⟩ := hsize ▸ hinv.ok hmask
  obtain ⟨gone, queue, hput⟩ := h.putReq
  obtain ⟨gone', queue', hget⟩ := h.getReq
  refine ⟨⟨hfifo, hinside, hapart, hstored, hready, hdone⟩, hput.ok, hget.ok, fun k k' hk hk' => ?_, fun k k' hk hk' => ?_, h.order⟩
  · exact hput.insideOne (by_contra fun hout => hk (h.put.outside k hout)) (by_contra fun hout => hk' (h.put.outside k' hout))
  · exact hget.insideOne (by_contra fun hout => hk (h.get.outside k hout)) (by_contra fun hout => hk' (h.get.outside k' hout))

/-! ### Two who put and one who gets -/

/-- A put that overtakes nobody, wherever they are. -/
def SolrosCalls.calm (s : SolrosCalls) (k : Nat) : Bool :=
  match s.putPc k with
  | .reapAggressively _ l => decide (l.rbTail2 = l.rbTail)
  | _ => true

theorem overtakes_of_calm {k k' : Nat} (h : s.calm k = true) : s.overtakes k k' = false := by
  unfold SolrosCalls.calm at h
  unfold SolrosCalls.overtakes Solros.overtakes
  dsimp only
  cases hput : s.putPc k with
  | reapAggressively req l =>
      rw [hput] at h
      have heq : l.rbTail2 = l.rbTail := of_decide_eq_true h
      cases s.getPc k' with
      | pass p rbTail => exact decide_eq_false fun ⟨hat, hne⟩ => hne (heq ▸ hat)
      | _ => rfl
  | _ => rfl

def solrosCallsRun (s : SolrosCalls) (as : List SolrosCallsAct) : Option SolrosCalls :=
  as.foldlM (fun s a => match a with
    | .putStep k => if s.calm k then s.putStep k else none
    | a => a.run s) s

theorem runs_of_solrosCallsRun {s' : SolrosCalls} {as : List SolrosCallsAct} (h : solrosCallsRun s as = some s') :
    Runs (Guarded SolrosCallsAct.Keeps SolrosCallsStep) s s' := by
  induction as generalizing s with
  | nil =>
      cases h
      exact Runs.refl _
  | cons a as ih =>
      obtain ⟨s₁, hstep, hrest⟩ := Option.bind_eq_some_iff.mp h
      refine (Runs.single (a := a) ?_).trans (ih hrest)
      cases a with
      | putStep k =>
          dsimp only at hstep
          by_cases hcalm : s.calm k = true
          · rw [if_pos hcalm] at hstep
            refine ⟨fun k₁ k₂ heq => ?_, hstep⟩
            obtain rfl : k = k₁ := by simpa using heq
            exact overtakes_of_calm hcalm
          · rw [if_neg hcalm] at hstep
            simp at hstep
      | _ => exact ⟨nofun, hstep⟩

/-- The second put is done by the first one's call. -/
def twoPuts : List SolrosCallsAct :=
  [.put 0 [7, 9] false, .put 1 [5] false, .putOp 0, .putOp 0, .putOp 1, .putStep 0, .putStep 0, .putStep 0, .putOp 1, .putStep 0,
    .putStep 0, .putStep 0, .putOp 0, .putOp 0, .putOp 0, .putOp 0, .putStep 0, .putStep 0, .putStep 0, .putStep 0, .putStep 0, .putStep 0,
    .putStep 0, .putStep 0, .putOp 0, .putOp 0, .putOp 0, .putOp 0, .user (.copyTo 0 0), .user (.copyTo 1 0), .user (.copyTo 0 1), .user (.loadReady 0),
    .get 0 false, .getOp 0, .getOp 0, .user (.storeReady 0), .getStep 0, .getStep 0, .getStep 0, .getStep 0, .getStep 0, .getStep 0,
    .getOp 0, .getOp 0, .getOp 0, .getOp 0, .user (.copyFrom 0 0), .user (.copyFrom 0 1)]

theorem solrosCalls_run_twoPuts :
    ∃ s, solrosCallsRun (.new smallRing) twoPuts = some s ∧ s.ring.view = [(64, [some 7, some 9], .copying)] ∧
      SolrosCallsOk 64 4096 s := by
  have hview : (solrosCallsRun (.new smallRing) twoPuts).map (fun s => s.ring.view) = some [(64, [some 7, some 9], .copying)] := by
    decide +kernel
  obtain ⟨s, hs, hview⟩ := Option.map_eq_some_iff.mp hview
  exact ⟨s, hs, hview, solrosCalls_run smallRing_create (by decide) (by decide) (by decide) (runs_of_solrosCallsRun hs)⟩

end Runs

end Parfs
