/-
No call waits for ever.

A call has to wait when its request is not done and the role is not its own, or when it is the
combiner and the request behind is not linked yet.  Somebody else can always go on then.  What is
left to do is counted: so many steps for each call, and so many more for each request that is not
let go, which pay for the combiner's next turn.
-/
import Mathlib.Algebra.Order.BigOperators.Group.Finset
import Parfs.Proofs.Combining

namespace Parfs

open Lib

/-! ### Waiting comes to an end -/

/-- A call that has to wait for another one, or is not there. -/
def Combining.Blocked (s : Combining) (k : Nat) : Prop :=
  match s.pc k with
  | .idle | .returned => True
  | .poll | .role => s.done k = false ∧ s.combiner k = false
  | .spin r _ _ => s.next r = none
  | _ => False

/-- A call that does not have to wait goes on. -/
def Combining.Advances (s s' : Combining) : Prop := ∃ k, ¬s.Blocked k ∧ s.step k = some s'

/-- Nothing is left to do. -/
structure Combining.Drained (s : Combining) : Prop where
  returned : ∀ k, s.pc k = .idle ∨ s.pc k = .returned
  executed : s.executed = s.asked
  done : ∀ r ∈ s.asked, s.done r = true
  reqTail : s.reqTail = none

/-- How far a call is from its return, if it is not made to wait. -/
def Combining.steps (s : Combining) (k : Nat) : Nat :=
  match s.pc k with
  | .idle | .returned => 0
  | .ask => 16
  | .link _ => 15
  | .poll => if s.done k then 12 else 14
  | .role => 13
  | .exec _ _ _ => 9
  | .inside _ _ _ => 8
  | .next _ _ _ => 7
  | .cas _ _ _ => 6
  | .spin _ _ _ => 5
  | .letGo _ _ _ _ => 4
  | .letLastGo _ => 4
  | .look _ _ => 11
  | .handOver _ => 10

/-- What is left to do; a request that is let go makes up for the next turn of the combiner. -/
def Combining.work (s : Combining) (calls : Finset Nat) : Nat :=
  ∑ k ∈ calls, s.steps k + 30 * (calls.filter fun r => s.done r = false).card

section Drain

variable {s s' : Combining} {gone queue : List Nat} {k r : Nat} {calls : Finset Nat}

/-- Some call does not have to wait. -/
theorem CombineInv.unblocked (h : CombineInv s gone queue) (hidle : s.pc k ≠ .idle) (hreturned : s.pc k ≠ .returned) :
    ∃ k', ¬s.Blocked k' := by
  by_cases hempty : queue = []
  · -- everyone is let go, or about to be
    subst hempty
    have hnone := h.idle k
    have hcall := h.calls k
    by_cases hwaits : (s.pc k).waits = true
    · have hgone : k ∈ gone := by
        have hcalled := h.called k
        rw [h.asked, List.append_nil] at hcalled
        cases hp : s.pc k <;> simp_all [CombinePc.waits]
      rcases h.goneDone k hgone with hdone | ⟨k', hlast⟩
      · refine ⟨k, fun hblocked => ?_⟩
        unfold Combining.Blocked at hblocked
        cases hp : s.pc k <;> simp_all [CombinePc.waits]
      · exact ⟨k', fun hblocked => by simp [Combining.Blocked, hlast] at hblocked⟩
    · rw [serves_at (by simpa using hwaits)] at hnone
      refine ⟨k, fun hblocked => ?_⟩
      unfold Combining.Blocked at hblocked
      cases hp : s.pc k <;> simp_all [CombinePc.waits, CombinePc.at]
  · obtain ⟨k', r, hr⟩ := h.busy hempty
    by_cases hwaits : (s.pc k').waits = true
    · rw [serves_waits hwaits] at hr
      have hcombiner : s.combiner k' = true := by
        by_contra hnot
        simp [hnot] at hr
      refine ⟨k', fun hblocked => ?_⟩
      unfold Combining.Blocked at hblocked
      cases hp : s.pc k' <;> simp [hp, hcombiner] at hblocked <;> simp [hp, CombinePc.waits] at hwaits
    · by_cases hspin : ∃ max i, s.pc k' = .spin r max i
      · -- the request behind is linked, or its call is about to link it
        obtain ⟨max, i, hspin⟩ := hspin
        obtain ⟨q, rfl⟩ := List.head?_eq_some_iff.mp (h.serves k' r hr).1
        have hcall := h.calls k'
        rw [hspin] at hcall
        cases hcall with
        | spin _ _ _ _ hmore =>
            cases q with
            | nil => simp at hmore
            | cons b q =>
                rcases h.joined 0 r b rfl rfl with ⟨hnext, -⟩ | ⟨-, hlink⟩
                · exact ⟨k', fun hblocked => by simp [Combining.Blocked, hspin, hnext] at hblocked⟩
                · exact ⟨b, fun hblocked => by simp [Combining.Blocked, hlink] at hblocked⟩
      · rw [serves_at (by simpa using hwaits)] at hr
        refine ⟨k', fun hblocked => ?_⟩
        unfold Combining.Blocked at hblocked
        cases hp : s.pc k' <;> simp_all [CombinePc.waits, CombinePc.at]

/-- When no call can go on, none is left. -/
theorem CombineInv.drained (h : CombineInv s gone queue) (hstuck : ∀ k, s.Blocked k) : s.Drained := by
  have hreturned : ∀ k, s.pc k = .idle ∨ s.pc k = .returned := by
    intro k
    by_contra hne
    obtain ⟨hidle, hback⟩ := not_or.mp hne
    obtain ⟨k', hk'⟩ := h.unblocked hidle hback
    exact hk' (hstuck k')
  have hempty : queue = [] := by
    by_contra hne
    obtain ⟨k, r, hr⟩ := h.busy hne
    unfold Combining.serves at hr
    rcases hreturned k with hp | hp <;> simp [hp, CombinePc.waits, CombinePc.at] at hr
  have hasked := h.asked
  rw [hempty, List.append_nil] at hasked
  refine ⟨hreturned, by rw [hasked, h.quiet hempty], fun r hr => ?_, by rw [h.reqTail, hempty]; rfl⟩
  refine (h.goneDone r (hasked ▸ hr)).resolve_right fun hfrees => ?_
  obtain ⟨k, hk⟩ := hfrees
  rcases hreturned k with hp | hp <;> simp [hp] at hk

/-- One call goes on, and no request is taken back. -/
theorem work_lt (hk : k ∈ calls) (hothers : ∀ k', k' ≠ k → s'.pc k' = s.pc k') (hdone : ∀ r, s.done r = true → s'.done r = true)
    (hless : s'.steps k < s.steps k ∨
      (s'.steps k < s.steps k + 30 ∧ ∃ r ∈ calls, s.done r = false ∧ s'.done r = true)) :
    s'.work calls < s.work calls := by
  have hsteps : ∑ k' ∈ calls.erase k, s'.steps k' ≤ ∑ k' ∈ calls.erase k, s.steps k' := by
    refine Finset.sum_le_sum fun k' hk' => ?_
    have hd := hdone k'
    unfold Combining.steps
    rw [hothers k' (Finset.ne_of_mem_erase hk')]
    cases s.pc k' <;> grind
  have hsub : (calls.filter fun r => s'.done r = false) ⊆ calls.filter fun r => s.done r = false := by
    intro r hr
    have hd := hdone r
    simp only [Finset.mem_filter] at hr ⊢
    grind
  have hcard := Finset.card_le_card hsub
  have hsum := Finset.add_sum_erase calls s.steps hk
  have hsum' := Finset.add_sum_erase calls s'.steps hk
  unfold Combining.work
  rcases hless with hless | ⟨hless, r, hr, hold, hnew⟩
  · omega
  · have hlt : (calls.filter fun r => s'.done r = false).card < (calls.filter fun r => s.done r = false).card := by
      refine Finset.card_lt_card ⟨hsub, fun hback => ?_⟩
      have hin := hback (Finset.mem_filter.mpr ⟨hr, hold⟩)
      simp [hnew] at hin
    omega

theorem call_others {nonBlocking : Bool} (hrun : s.call k nonBlocking = some s') {k' : Nat} (hne : k' ≠ k) : s'.pc k' = s.pc k' := by
  unfold Combining.call at hrun
  cases hp : s.pc k with
  | idle =>
      rw [hp, Option.some.injEq] at hrun
      subst hrun
      exact Function.update_of_ne hne _ _
  | _ =>
      rw [hp] at hrun
      simp at hrun

/-- A call that is not blocked has a step. -/
theorem step_of_unblocked (hfree : ¬s.Blocked k) : ∃ s', s.step k = some s' := by
  unfold Combining.Blocked at hfree
  unfold Combining.step
  generalize s.pc k = p at hfree
  cases p with
  | idle => exact absurd trivial hfree
  | returned => exact absurd trivial hfree
  | next r max i => cases hnext : s.next r <;> simp [hnext]
  | spin r max i => cases hnext : s.next r <;> simp [hnext]
  | cas r max i => by_cases htail : s.reqTail = some r <;> simp [htail]
  | look r max => by_cases hblocks : s.nonBlocking r = true <;> simp [hblocks]
  | _ => exact ⟨_, rfl⟩

/-- What goes on comes to its end. -/
theorem CombineInv.advance (h : CombineInv s gone queue) (hcalls : ∀ k, s.pc k ≠ .idle → k ∈ calls) (hadvances : s.Advances s') :
    s'.work calls < s.work calls ∧ ∀ k, s'.pc k ≠ .idle → k ∈ calls := by
  obtain ⟨k, hfree, hrun⟩ := hadvances
  obtain ⟨hidle, hothers, hdone⟩ := step_others hrun
  have hk : k ∈ calls := hcalls k hidle
  refine ⟨work_lt hk hothers hdone ?_, fun k' hk' => ?_⟩
  · have hmove := step_move hrun
    unfold Combining.Blocked at hfree
    unfold Combining.steps
    generalize hp : s.pc k = p at hmove hfree
    cases hmove with
    | letGo r max i rNext =>
        right
        obtain ⟨hin, hasked⟩ := h.mem_asked (serves_of (show (s.pc k).at = some r by rw [hp]; rfl))
        have hr : r ∈ calls := hcalls r fun hr => ((h.called r).mpr (Or.inl hr)) hasked
        refine ⟨?_, r, hr, (h.pending hin).2, Function.update_self _ _ _⟩
        dsimp only
        rw [Function.update_self]
        by_cases hi : i = 0 <;> simp [hi]
    | link oldTail =>
        left
        dsimp only
        rw [Function.update_self]
        by_cases hwaits : s.nonBlocking k = true
        · simp [hwaits]
        · by_cases hd : s.done k = true <;> simp [hwaits, hd]
    | notYet hd =>
        left
        simp [Combining.goto, hd]
    | polled hd =>
        left
        simp [Combining.goto, hd]
    | waits hc =>
        left
        have hd : s.done k = true := by simpa [hc] using hfree
        simp [Combining.goto, hd]
    | unlinked r max i hnext => exact absurd hnext hfree
    | _ =>
        left
        simp [Combining.goto]
  · by_cases hne : k' = k
    · exact hne ▸ hk
    · exact hcalls k' (hothers k' hne ▸ hk')

end Drain

section Runs

variable {s s' : Combining} {k : Nat}

/-- Only so many calls are there. -/
theorem calls_finite (hrun : Runs CombineStep .new s) : ∃ calls : Finset Nat, ∀ k, s.pc k ≠ .idle → k ∈ calls := by
  have hkeep : ∀ s a s', (∃ calls : Finset Nat, ∀ k, s.pc k ≠ .idle → k ∈ calls) → CombineStep s a s' →
      ∃ calls : Finset Nat, ∀ k, s'.pc k ≠ .idle → k ∈ calls := by
    intro s a s' ⟨calls, hcalls⟩ hstep
    cases a with
    | call k nonBlocking =>
        refine ⟨insert k calls, fun k' hk' => ?_⟩
        by_cases hne : k' = k
        · exact Finset.mem_insert.mpr (Or.inl hne)
        · refine Finset.mem_insert_of_mem (hcalls k' ?_)
          rw [call_others hstep hne] at hk'
          exact hk'
    | step k =>
        obtain ⟨hidle, hothers, -⟩ := step_others hstep
        refine ⟨calls, fun k' hk' => ?_⟩
        by_cases hne : k' = k
        · exact hne ▸ hcalls k hidle
        · exact hcalls k' (hothers k' hne ▸ hk')
  exact hrun.invariant hkeep ⟨∅, by simp [Combining.new]⟩

/-- **Nobody waits for ever.**  As long as calls that do not have to wait go on, there are only so
many steps, and when there is no more of them every call has returned and every request is done. -/
theorem combining_drains (hrun : Runs CombineStep .new s) :
    Acc (fun s' s => Combining.Advances s s') s ∧ ((∀ s', ¬s.Advances s') → s.Drained) := by
  obtain ⟨calls, hcalls⟩ := calls_finite hrun
  obtain ⟨gone, queue, h⟩ := combineInv_run hrun
  refine ⟨?_, fun hstuck => h.drained fun k => ?_⟩
  · have hall : ∀ n s gone queue, CombineInv s gone queue → (∀ k, s.pc k ≠ .idle → k ∈ calls) → s.work calls = n →
        Acc (fun s' s => Combining.Advances s s') s := by
      intro n
      induction n using Nat.strong_induction_on with
      | _ n ih =>
          intro s gone queue h hcalls hn
          refine Acc.intro s fun s' hadvances => ?_
          obtain ⟨hlt, hcalls'⟩ := h.advance hcalls hadvances
          obtain ⟨k, -, hstep⟩ := hadvances
          obtain ⟨gone', queue', h'⟩ := h.step hstep
          exact ih _ (hn ▸ hlt) s' gone' queue' h' hcalls' rfl
    exact hall _ s gone queue h hcalls rfl
  · by_contra hfree
    obtain ⟨s', hs'⟩ := step_of_unblocked hfree
    exact hstuck s' ⟨k, hfree, hs'⟩

theorem combining_drains_twoCalls :
    ∃ s, combineRun .new twoCalls = some s ∧ Acc (fun s' s => Combining.Advances s s') s := by
  obtain ⟨s, hs⟩ : ∃ s, combineRun .new twoCalls = some s := Option.isSome_iff_exists.mp (by decide +kernel)
  exact ⟨s, hs, (combining_drains (runs_of_combineRun hs)).1⟩

end Runs

end Parfs
