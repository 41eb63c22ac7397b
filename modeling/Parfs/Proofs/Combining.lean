/-
What holds of a combining queue between any two accesses.

The requests that have been asked are those that are let go and those in the queue, in the order
of their swaps.  Someone serves the first one of the queue: the combiner, or the waiter to whom it
has handed its role.  Nobody else does, and that is all that keeps two from being in `exec_op`
at once.  Between a swap and the store of `__next` the queue has a gap, which the combiner waits
at, unless it gets there first and finds that its request is the last.
-/
import Mathlib.Data.List.Nodup
import Parfs.Combining
import Parfs.Lib.Run

namespace Parfs

open Lib

/-! ### Roles -/

/-- The request a combiner is at. -/
def CombinePc.at : CombinePc → Option Nat
  | .exec r _ _ | .inside r _ _ | .next r _ _ | .cas r _ _ | .spin r _ _ | .letGo r _ _ _ | .look r _ | .handOver r => some r
  | _ => none

/-- It is through with it. -/
def CombinePc.after : CombinePc → Bool
  | .next _ _ _ | .cas _ _ _ | .spin _ _ _ | .letGo _ _ _ _ => true
  | _ => false

def CombinePc.waits : CombinePc → Bool
  | .poll | .role => true
  | _ => false

/-- The request a call is going to do next, as the combiner. -/
def Combining.serves (s : Combining) (k : Nat) : Option Nat :=
  if (s.pc k).waits then if s.combiner k then some k else none else (s.pc k).at

/-- One request behind another. -/
def Combining.Joined (s : Combining) (a b : Nat) : Prop :=
  (s.next a = some b ∧ ∀ o, s.pc b ≠ .link o) ∨ (s.next a = none ∧ s.pc b = .link a)

/-- What a call can do where it is. -/
inductive CombineMove (s : Combining) (k : Nat) : CombinePc → Combining → Prop
  | askFirst (htail : s.reqTail = none) : CombineMove s k .ask { s with
      reqTail := some k, asked := s.asked ++ [k], pc := Function.update s.pc k (.exec k maxCombining (maxCombining - 1)) }
  | askBehind (oldTail : Nat) (htail : s.reqTail = some oldTail) : CombineMove s k .ask { s with
      reqTail := some k, asked := s.asked ++ [k], pc := Function.update s.pc k (.link oldTail) }
  | link (oldTail : Nat) : CombineMove s k (.link oldTail) { s with
      next := Function.update s.next oldTail (some k)
      pc := Function.update s.pc k (if s.nonBlocking k then .returned else .poll) }
  | polled (hdone : s.done k = true) : CombineMove s k .poll (s.goto k .returned)
  | notYet (hdone : s.done k = false) : CombineMove s k .poll (s.goto k .role)
  | combines (hrole : s.combiner k = true) : CombineMove s k .role (s.goto k (.exec k maxCombining (maxCombining - 1)))
  | waits (hrole : s.combiner k = false) : CombineMove s k .role (s.goto k .poll)
  | exec (r max i : Nat) : CombineMove s k (.exec r max i) (s.goto k (.inside r max i))
  | inside (r max i : Nat) : CombineMove s k (.inside r max i) { s with
      executed := s.executed ++ [r], pc := Function.update s.pc k (.next r max i) }
  | next (r max i rNext : Nat) (hnext : s.next r = some rNext) :
      CombineMove s k (.next r max i) (s.goto k (.letGo r max i rNext))
  | noNext (r max i : Nat) : CombineMove s k (.next r max i) (s.goto k (.cas r max i))
  | leave (r max i : Nat) (htail : s.reqTail = some r) : CombineMove s k (.cas r max i) { s with
      reqTail := none, pc := Function.update s.pc k (.letLastGo r) }
  | notLast (r max i : Nat) (htail : s.reqTail ≠ some r) : CombineMove s k (.cas r max i) (s.goto k (.spin r max i))
  | linked (r max i rNext : Nat) (hnext : s.next r = some rNext) :
      CombineMove s k (.spin r max i) (s.goto k (.letGo r max i rNext))
  | unlinked (r max i : Nat) (hnext : s.next r = none) : CombineMove s k (.spin r max i) s
  | letGo (r max i rNext : Nat) : CombineMove s k (.letGo r max i rNext) { s with
      done := Function.update s.done r true
      pc := Function.update s.pc k (if i = 0 then .look rNext max else .exec rNext max (i - 1)) }
  | letLastGo (r : Nat) : CombineMove s k (.letLastGo r) { s with
      done := Function.update s.done r true, pc := Function.update s.pc k .returned }
  | combineMore (r max : Nat) : CombineMove s k (.look r max) (s.goto k (.exec r (max / 2 + 1) (max / 2)))
  | found (r max : Nat) (hblocks : s.nonBlocking r = false) : CombineMove s k (.look r max) (s.goto k (.handOver r))
  | handOver (r : Nat) : CombineMove s k (.handOver r) { s with
      combiner := Function.update s.combiner r true, pc := Function.update s.pc k .returned }

/-- What a call knows. -/
inductive CombinerOk (s : Combining) (gone queue : List Nat) (k : Nat) : CombinePc → Prop
  | idle : CombinerOk s gone queue k .idle
  | ask : CombinerOk s gone queue k .ask
  | link (oldTail : Nat) (hin : k ∈ queue.tail) (hflag : s.combiner k = false) : CombinerOk s gone queue k (.link oldTail)
  | poll (hwaits : s.nonBlocking k = false) : CombinerOk s gone queue k .poll
  | role (hwaits : s.nonBlocking k = false) : CombinerOk s gone queue k .role
  | exec (r max i : Nat) (hown : r = k ∨ s.done k = true) : CombinerOk s gone queue k (.exec r max i)
  | inside (r max i : Nat) (hown : r = k ∨ s.done k = true) : CombinerOk s gone queue k (.inside r max i)
  | next (r max i : Nat) (hown : r = k ∨ s.done k = true) : CombinerOk s gone queue k (.next r max i)
  | cas (r max i : Nat) (hown : r = k ∨ s.done k = true) : CombinerOk s gone queue k (.cas r max i)
  | spin (r max i : Nat) (hown : r = k ∨ s.done k = true) (hmore : queue.getLast? ≠ some r) : CombinerOk s gone queue k (.spin r max i)
  | letGo (r max i rNext : Nat) (hown : r = k ∨ s.done k = true) (hnext : s.next r = some rNext) :
      CombinerOk s gone queue k (.letGo r max i rNext)
  | letLastGo (r : Nat) (hown : r = k ∨ s.done k = true) (hgone : r ∈ gone) (hnot : s.done r = false) :
      CombinerOk s gone queue k (.letLastGo r)
  | look (r max : Nat) (hown : s.done k = true) : CombinerOk s gone queue k (.look r max)
  | handOver (r : Nat) (hown : s.done k = true) (hwaits : s.nonBlocking r = false) : CombinerOk s gone queue k (.handOver r)
  | returned (hdone : s.done k = true ∨ s.nonBlocking k = true) : CombinerOk s gone queue k .returned

/-- The invariant. -/
structure CombineInv (s : Combining) (gone queue : List Nat) : Prop where
  asked : s.asked = gone ++ queue
  nodup : s.asked.Nodup
  reqTail : s.reqTail = queue.getLast?
  joined : ∀ i a b, queue[i]? = some a → queue[i + 1]? = some b → s.Joined a b
  last : ∀ r, queue.getLast? = some r → s.next r = none
  serves : ∀ k r, s.serves k = some r → queue.head? = some r ∧ s.executed = gone ++ if (s.pc k).after then [r] else []
  one : ∀ k k' r r', s.serves k = some r → s.serves k' = some r' → k = k'
  busy : queue ≠ [] → ∃ k r, s.serves k = some r
  quiet : queue = [] → s.executed = gone
  fresh : ∀ k, k ∉ s.asked → s.next k = none ∧ s.done k = false ∧ s.combiner k = false
  called : ∀ k, k ∉ s.asked ↔ s.pc k = .idle ∨ s.pc k = .ask
  doneGone : ∀ k, s.done k = true → k ∈ gone
  goneDone : ∀ k ∈ gone, s.done k = true ∨ ∃ k', s.pc k' = .letLastGo k
  lastOne : ∀ k k' r, s.pc k = .letLastGo r → s.pc k' = .letLastGo r → k = k'
  calls : ∀ k, CombinerOk s gone queue k (s.pc k)

section Combining

variable {s s' : Combining} {gone queue : List Nat} {k r : Nat} {pc : CombinePc}

theorem serves_congr (hpc : s'.pc k = s.pc k) (hcombiner : s'.combiner k = s.combiner k) : s'.serves k = s.serves k := by
  unfold Combining.serves
  rw [hpc, hcombiner]

theorem serves_at (h : (s.pc k).waits = false) : s.serves k = (s.pc k).at := by
  unfold Combining.serves
  rw [h]
  rfl

theorem serves_of (h : (s.pc k).at = some r) : s.serves k = some r := by
  rw [serves_at, h]
  cases hp : s.pc k with
  | poll => simp [hp, CombinePc.at] at h
  | role => simp [hp, CombinePc.at] at h
  | _ => rfl

theorem serves_waits (h : (s.pc k).waits = true) : s.serves k = if s.combiner k then some k else none := by
  unfold Combining.serves
  rw [h]
  rfl

theorem step_move (hrun : s.step k = some s') : CombineMove s k (s.pc k) s' := by
  unfold Combining.step at hrun
  generalize s.pc k = p at hrun
  cases p with
  | idle => simp at hrun
  | returned => simp at hrun
  | ask =>
      cases htail : s.reqTail with
      | none =>
          rw [htail, Option.some.injEq] at hrun
          exact hrun ▸ .askFirst htail
      | some oldTail =>
          rw [htail, Option.some.injEq] at hrun
          exact hrun ▸ .askBehind oldTail htail
  | link oldTail => exact Option.some.inj hrun ▸ .link oldTail
  | poll =>
      cases hdone : s.done k with
      | true =>
          rw [hdone, if_pos rfl, Option.some.injEq] at hrun
          exact hrun ▸ .polled hdone
      | false =>
          rw [hdone, if_neg Bool.false_ne_true, Option.some.injEq] at hrun
          exact hrun ▸ .notYet hdone
  | role =>
      cases hrole : s.combiner k with
      | true =>
          rw [hrole, if_pos rfl, Option.some.injEq] at hrun
          exact hrun ▸ .combines hrole
      | false =>
          rw [hrole, if_neg Bool.false_ne_true, Option.some.injEq] at hrun
          exact hrun ▸ .waits hrole
  | exec r max i => exact Option.some.inj hrun ▸ .exec r max i
  | inside r max i => exact Option.some.inj hrun ▸ .inside r max i
  | next r max i =>
      dsimp only at hrun
      cases hnext : s.next r with
      | some rNext =>
          rw [hnext, Option.some.injEq] at hrun
          exact hrun ▸ .next r max i rNext hnext
      | none =>
          rw [hnext, Option.some.injEq] at hrun
          exact hrun ▸ .noNext r max i
  | cas r max i =>
      dsimp only at hrun
      by_cases htail : s.reqTail = some r
      · rw [if_pos htail, Option.some.injEq] at hrun
        exact hrun ▸ .leave r max i htail
      · rw [if_neg htail, Option.some.injEq] at hrun
        exact hrun ▸ .notLast r max i htail
  | spin r max i =>
      dsimp only at hrun
      cases hnext : s.next r with
      | some rNext =>
          rw [hnext, Option.some.injEq] at hrun
          exact hrun ▸ .linked r max i rNext hnext
      | none =>
          rw [hnext, Option.some.injEq] at hrun
          exact hrun ▸ .unlinked r max i hnext
  | letGo r max i rNext => exact Option.some.inj hrun ▸ .letGo r max i rNext
  | letLastGo r => exact Option.some.inj hrun ▸ .letLastGo r
  | look r max =>
      dsimp only at hrun
      cases hblocks : s.nonBlocking r with
      | true =>
          rw [hblocks, if_pos rfl, Option.some.injEq] at hrun
          exact hrun ▸ .combineMore r max
      | false =>
          rw [hblocks, if_neg Bool.false_ne_true, Option.some.injEq] at hrun
          exact hrun ▸ .found r max hblocks
  | handOver r => exact Option.some.inj hrun ▸ .handOver r

/-- The others stay where they are. -/
theorem step_others (hrun : s.step k = some s') :
    s.pc k ≠ .idle ∧ (∀ k', k' ≠ k → s'.pc k' = s.pc k') ∧ ∀ r, s.done r = true → s'.done r = true := by
  have hmove := step_move hrun
  generalize hp : s.pc k = p at hmove
  cases hmove <;> simp +contextual [Combining.goto, Function.update_apply]

theorem combineInv_new : CombineInv .new [] [] := by
  refine ⟨rfl, List.nodup_nil, rfl, ?_, ?_, ?_, ?_, ?_, ?_, ?_, ?_, ?_, ?_, ?_, ?_⟩ <;>
    simp [Combining.new, Combining.serves, CombinePc.at, CombinePc.waits, CombinerOk.idle]

/-- What a call knows stays true. -/
theorem CombinerOk.frame {gone' queue' : List Nat} (h : CombinerOk s gone queue k pc) (hdone : ∀ r, s.done r = true → s'.done r = true)
    (hnext : ∀ r b, s.next r = some b → s'.next r = some b)
    (hwaits : ∀ r, r = k ∨ pc = .handOver r → s'.nonBlocking r = s.nonBlocking r) (hgone : ∀ r ∈ gone, r ∈ gone')
    (hnot : ∀ r, pc = .letLastGo r → s.done r = false → s'.done r = false)
    (hqueue : ∀ o, pc = .link o → k ∈ queue.tail → k ∈ queue'.tail)
    (hflag : ∀ o, pc = .link o → s'.combiner k = s.combiner k)
    (hmore : ∀ r max i, pc = .spin r max i → queue.getLast? ≠ some r → queue'.getLast? ≠ some r) : CombinerOk s' gone' queue' k pc := by
  have hown : ∀ {r : Nat}, r = k ∨ s.done k = true → r = k ∨ s'.done k = true := fun ho => ho.imp id (hdone k)
  have hself := hwaits k (Or.inl rfl)
  cases h with
  | idle => exact .idle
  | ask => exact .ask
  | link oldTail hin hf => exact .link oldTail (hqueue oldTail rfl hin) ((hflag oldTail rfl).trans hf)
  | poll hw => exact .poll (hself.trans hw)
  | role hw => exact .role (hself.trans hw)
  | exec r max i ho => exact .exec r max i (hown ho)
  | inside r max i ho => exact .inside r max i (hown ho)
  | next r max i ho => exact .next r max i (hown ho)
  | cas r max i ho => exact .cas r max i (hown ho)
  | spin r max i ho hm => exact .spin r max i (hown ho) (hmore r max i rfl hm)
  | letGo r max i rNext ho hn => exact .letGo r max i rNext (hown ho) (hnext r rNext hn)
  | letLastGo r ho hg hd => exact .letLastGo r (hown ho) (hgone r hg) (hnot r rfl hd)
  | look r max ho => exact .look r max (hdone k ho)
  | handOver r ho hw => exact .handOver r (hdone k ho) ((hwaits r (Or.inr rfl)).trans hw)
  | returned hd => exact .returned (hd.imp (hdone k) fun hn => hself.trans hn)

/-- A step that only changes where a call is. -/
theorem CombineInv.goto (h : CombineInv s gone queue) (hserves : (s.goto k pc).serves k = s.serves k)
    (hafter : pc.after = (s.pc k).after) (hcall : CombinerOk s gone queue k pc)
    (hold : s.pc k ≠ .idle ∧ s.pc k ≠ .ask ∧ (∀ o, s.pc k ≠ .link o) ∧ ∀ r, s.pc k ≠ .letLastGo r)
    (hnew : pc ≠ .idle ∧ pc ≠ .ask ∧ (∀ o, pc ≠ .link o) ∧ ∀ r, pc ≠ .letLastGo r) : CombineInv (s.goto k pc) gone queue := by
  have hpc : ∀ k', (s.goto k pc).pc k' = if k' = k then pc else s.pc k' := fun k' => Function.update_apply _ _ _ _
  have hall : ∀ k', (s.goto k pc).serves k' = s.serves k' := by
    intro k'
    by_cases hk : k' = k
    · rw [hk, hserves]
    · unfold Combining.serves
      rw [hpc, if_neg hk]
      rfl
  refine ⟨h.asked, h.nodup, h.reqTail, ?_, h.last, ?_, ?_, ?_, h.quiet, h.fresh, ?_, h.doneGone, ?_, ?_, ?_⟩
  · intro i a b ha hb
    have hab := h.joined i a b ha hb
    unfold Combining.Joined at hab ⊢
    rw [hpc]
    by_cases hb : b = k
    · rw [if_pos hb]
      rw [hb] at hab
      exact Or.inl ⟨(hab.resolve_right fun hlink => hold.2.2.1 a hlink.2).1.trans (by rw [hb]), hnew.2.2.1⟩
    · rw [if_neg hb]
      exact hab
  · intro k' r hr
    rw [hall] at hr
    obtain ⟨hhead, hexec⟩ := h.serves k' r hr
    refine ⟨hhead, ?_⟩
    rw [hpc]
    by_cases hk : k' = k
    · rw [if_pos hk, hafter, ← hk]
      exact hexec
    · rw [if_neg hk]
      exact hexec
  · intro k₁ k₂ r r' h1 h2
    rw [hall] at h1 h2
    exact h.one k₁ k₂ r r' h1 h2
  · intro hne
    obtain ⟨k', r, hr⟩ := h.busy hne
    exact ⟨k', r, by rw [hall, hr]⟩
  · intro k'
    rw [hpc, show (s.goto k pc).asked = s.asked from rfl, h.called]
    grind
  · intro k' hk'
    refine (h.goneDone k' hk').imp id fun ⟨k'', hlast⟩ => ⟨k'', ?_⟩
    rw [hpc, if_neg fun heq : k'' = k => hold.2.2.2 k' (heq ▸ hlast)]
    exact hlast
  · intro k₁ k₂ r h1 h2
    rw [hpc] at h1 h2
    have hlast := h.lastOne k₁ k₂ r
    grind
  · intro k'
    rw [hpc]
    by_cases hk : k' = k
    · rw [if_pos hk, hk]
      exact hcall.frame (fun _ hd => hd) (fun _ _ hn => hn) (fun _ _ => rfl) (fun _ hg => hg) (fun _ _ hd => hd) (fun _ _ hq => hq) (fun _ _ => rfl)
        fun _ _ _ _ hm => hm
    · rw [if_neg hk]
      exact (h.calls k').frame (fun _ hd => hd) (fun _ _ hn => hn) (fun _ _ => rfl) (fun _ hg => hg) (fun _ _ hd => hd)
        (fun _ _ hq => hq) (fun _ _ => rfl)
        fun _ _ _ _ hm => hm

/-- Nobody is at an element of the queue before it is in front. -/
theorem CombineInv.mem_asked (h : CombineInv s gone queue) (hr : s.serves k = some r) : r ∈ queue ∧ r ∈ s.asked := by
  have hin : r ∈ queue := List.mem_of_mem_head? (h.serves k r hr).1
  rw [h.asked]
  exact ⟨hin, List.mem_append_right gone hin⟩

theorem CombineInv.call (h : CombineInv s gone queue) {nonBlocking : Bool} (hrun : s.call k nonBlocking = some s') :
    CombineInv s' gone queue := by
  unfold Combining.call at hrun
  cases hpc : s.pc k with
  | idle =>
      rw [hpc, Option.some.injEq] at hrun
      subst hrun
      have hnew : k ∉ s.asked := (h.called k).mpr (Or.inl hpc)
      have hall : ∀ k', Combining.serves { s with
          nonBlocking := Function.update s.nonBlocking k nonBlocking, pc := Function.update s.pc k .ask } k' = s.serves k' := by
        intro k'
        by_cases hk : k' = k
        · rw [hk]
          simp [Combining.serves, hpc, CombinePc.at, CombinePc.waits]
        · simp [Combining.serves, hk]
      refine ⟨h.asked, h.nodup, h.reqTail, ?_, h.last, ?_, ?_, ?_, h.quiet, h.fresh, ?_, h.doneGone, ?_, ?_, ?_⟩
      · intro i a b ha hb
        have hab := h.joined i a b ha hb
        unfold Combining.Joined at hab ⊢
        grind [Function.update_apply]
      · intro k' r hr
        rw [hall] at hr
        have hs := h.serves k' r hr
        grind [Function.update_apply, Combining.serves, CombinePc.at, CombinePc.waits]
      · intro k₁ k₂ r r' h1 h2
        rw [hall] at h1 h2
        exact h.one k₁ k₂ r r' h1 h2
      · intro hne
        obtain ⟨k', r, hr⟩ := h.busy hne
        exact ⟨k', r, by rw [hall, hr]⟩
      · intro k'
        dsimp only
        rw [h.called, Function.update_apply]
        grind
      · intro k' hk'
        refine (h.goneDone k' hk').imp id fun ⟨k'', hlast⟩ => ⟨k'', ?_⟩
        grind [Function.update_apply]
      · intro k₁ k₂ r h1 h2
        have hlast := h.lastOne k₁ k₂ r
        grind [Function.update_apply]
      · intro k'
        dsimp only
        rw [Function.update_apply]
        by_cases hk : k' = k
        · rw [if_pos hk]
          exact .ask
        · rw [if_neg hk]
          refine (h.calls k').frame (fun _ hd => hd) (fun _ _ hn => hn) (fun r hr => ?_) (fun _ hg => hg) (fun _ _ hd => hd)
            (fun _ _ hq => hq) (fun _ _ => rfl) fun _ _ _ _ hm => hm
          refine Function.update_of_ne (fun heq => ?_) _ _
          rcases hr with rfl | hhand
          · exact hk heq
          · have hr : s.serves k' = some r := by simp [Combining.serves, hhand, CombinePc.at, CombinePc.waits]
            exact hnew (heq ▸ (h.mem_asked hr).2)
  | _ =>
      rw [hpc] at hrun
      simp at hrun

theorem CombineInv.nodup_queue (h : CombineInv s gone queue) : queue.Nodup := by
  have hnodup := h.nodup
  rw [h.asked] at hnodup
  exact (List.nodup_append.mp hnodup).2.1

/-- A request in the queue is not let go. -/
theorem CombineInv.pending (h : CombineInv s gone queue) (hin : r ∈ queue) : r ∉ gone ∧ s.done r = false := by
  have hnodup := h.nodup
  rw [h.asked] at hnodup
  have hnot : r ∉ gone := fun hg => (List.nodup_append.mp hnodup).2.2 r hg r hin rfl
  refine ⟨hnot, ?_⟩
  by_contra hne
  exact hnot (h.doneGone r (by simpa using hne))

/-- Nobody serves an empty queue. -/
theorem CombineInv.idle (h : CombineInv s gone []) (k : Nat) : s.serves k = none := by
  by_contra hne
  obtain ⟨r, hr⟩ := Option.ne_none_iff_exists'.mp hne
  simpa using (h.serves k r hr).1

/-- The swap finds no one. -/
theorem CombineInv.askFirst (h : CombineInv s gone []) (hpc : s.pc k = .ask)
    (hs' : s' = { s with reqTail := some k, asked := s.asked ++ [k], pc := Function.update s.pc k (.exec k maxCombining (maxCombining - 1)) }) :
    CombineInv s' gone [k] := by
  have hnew : k ∉ s.asked := (h.called k).mpr (Or.inr hpc)
  obtain ⟨hnext, hdone, hcombiner⟩ := h.fresh k hnew
  have hquiet := h.quiet rfl
  have hpc' : ∀ k', s'.pc k' = if k' = k then .exec k maxCombining (maxCombining - 1) else s.pc k' := by
    intro k'
    rw [hs']
    exact Function.update_apply _ _ _ _
  have hserves : ∀ k', s'.serves k' = if k' = k then some k else none := by
    intro k'
    by_cases hk : k' = k
    · rw [if_pos hk, hk, serves_at (by rw [hpc', if_pos rfl]; rfl), hpc', if_pos rfl]
      rfl
    · rw [if_neg hk, serves_congr (s := s) (by rw [hpc', if_neg hk]) (by rw [hs']), h.idle]
  have hasked : s'.asked = s.asked ++ [k] := by rw [hs']
  have hsame : s'.next = s.next ∧ s'.nonBlocking = s.nonBlocking ∧ s'.done = s.done ∧ s'.combiner = s.combiner ∧
      s'.executed = s.executed ∧ s'.reqTail = some k := by simp [hs']
  obtain ⟨hnexts, hwaits, hdones, hcombiners, hexec, htail⟩ := hsame
  refine ⟨?_, ?_, htail, ?_, ?_, ?_, ?_, ?_, ?_, ?_, ?_, ?_, ?_, ?_, ?_⟩
  · simp [hasked, h.asked]
  · rw [hasked]
    exact List.nodup_append.mpr ⟨h.nodup, by simp, by grind⟩
  · grind
  · grind
  · intro k' r hr
    rw [hserves] at hr
    rw [hpc', hexec, hquiet]
    grind [CombinePc.after]
  · grind
  · exact fun _ => ⟨k, k, by rw [hserves, if_pos rfl]⟩
  · simp
  · rw [hasked, hnexts, hdones, hcombiners]
    grind [h.fresh]
  · intro k'
    have hcalled := h.called k'
    grind
  · rw [hdones]
    exact h.doneGone
  · intro k' hk'
    have hgone := h.goneDone k' hk'
    grind
  · intro k₁ k₂ r h1 h2
    have hlast := h.lastOne k₁ k₂ r
    grind
  · intro k'
    rw [hpc']
    by_cases hk : k' = k
    · rw [if_pos hk]
      exact .exec k _ _ (Or.inl hk.symm)
    · rw [if_neg hk]
      exact (h.calls k').frame (by grind) (by grind) (by grind) (by grind) (by grind) (by grind)
        (by grind) fun r max i hspin => by
          have hnone := h.idle k'
          rw [serves_at (by rw [hspin]; rfl), hspin] at hnone
          simp [CombinePc.at] at hnone

/-- The swap finds someone. -/
theorem CombineInv.askBehind {oldTail : Nat} (h : CombineInv s gone queue) (hpc : s.pc k = .ask) (htail : s.reqTail = some oldTail)
    (hs' : s' = { s with reqTail := some k, asked := s.asked ++ [k], pc := Function.update s.pc k (.link oldTail) }) :
    CombineInv s' gone (queue ++ [k]) := by
  have hnew : k ∉ s.asked := (h.called k).mpr (Or.inr hpc)
  have hnot : k ∉ queue := fun hin => hnew (by rw [h.asked]; exact List.mem_append_right gone hin)
  have hlast : queue.getLast? = some oldTail := by rw [← h.reqTail, htail]
  have hne : queue ≠ [] := by
    intro hempty
    simp [hempty] at hlast
  have hpc' : ∀ k', s'.pc k' = if k' = k then .link oldTail else s.pc k' := by
    intro k'
    rw [hs']
    exact Function.update_apply _ _ _ _
  have hserves : ∀ k', s'.serves k' = s.serves k' := by
    intro k'
    by_cases hk : k' = k
    · rw [hk, serves_at (by rw [hpc', if_pos rfl]; rfl), serves_at (by rw [hpc]; rfl), hpc', if_pos rfl, hpc]
      rfl
    · exact serves_congr (by rw [hpc', if_neg hk]) (by rw [hs'])
  have hasked : s'.asked = s.asked ++ [k] := by rw [hs']
  have hsame : s'.next = s.next ∧ s'.nonBlocking = s.nonBlocking ∧ s'.done = s.done ∧ s'.combiner = s.combiner ∧
      s'.executed = s.executed ∧ s'.reqTail = some k := by simp [hs']
  obtain ⟨hnexts, hwaits, hdones, hcombiners, hexec, htail'⟩ := hsame
  refine ⟨?_, ?_, ?_, ?_, ?_, ?_, ?_, ?_, ?_, ?_, ?_, ?_, ?_, ?_, ?_⟩
  · simp [hasked, h.asked]
  · rw [hasked]
    exact List.nodup_append.mpr ⟨h.nodup, by simp, by grind⟩
  · simp [htail']
  · intro i a b ha hb
    have hjoined := h.joined i a b
    have hold := h.last a
    unfold Combining.Joined at hjoined ⊢
    rw [hnexts, hpc']
    by_cases hin : i + 1 < queue.length
    · rw [List.getElem?_append_left hin] at hb
      rw [List.getElem?_append_left (by omega)] at ha
      have hbk : b ≠ k := fun heq => hnot (heq ▸ List.mem_of_getElem? hb)
      rw [if_neg hbk]
      exact hjoined ha hb
    · -- the last one, and the new one
      have hlt := (List.getElem?_eq_some_iff.mp hb).1
      simp only [List.length_append, List.length_singleton] at hlt
      obtain rfl : i = queue.length - 1 := by omega
      rw [List.getElem?_append_left (by omega), ← List.getLast?_eq_getElem?, hlast, Option.some.injEq] at ha
      rw [Nat.sub_add_cancel (by omega), List.getElem?_concat_length, Option.some.injEq] at hb
      rw [if_pos hb.symm, ha]
      exact Or.inr ⟨ha ▸ hold (ha ▸ hlast), rfl⟩
  · intro r hr
    have hfresh := h.fresh k hnew
    grind
  · intro k' r hr
    rw [hserves] at hr
    have hs := h.serves k' r hr
    rw [hpc', hexec]
    grind [Combining.serves, CombinePc.at, CombinePc.waits]
  · intro k₁ k₂ r r' h1 h2
    rw [hserves] at h1 h2
    exact h.one k₁ k₂ r r' h1 h2
  · intro _
    obtain ⟨k', r, hr⟩ := h.busy hne
    exact ⟨k', r, by rw [hserves, hr]⟩
  · simp
  · rw [hasked, hnexts, hdones, hcombiners]
    grind [h.fresh]
  · intro k'
    have hcalled := h.called k'
    grind
  · rw [hdones]
    exact h.doneGone
  · intro k' hk'
    have hgone := h.goneDone k' hk'
    grind
  · intro k₁ k₂ r h1 h2
    have hlast := h.lastOne k₁ k₂ r
    grind
  · intro k'
    rw [hpc']
    by_cases hk : k' = k
    · rw [if_pos hk]
      refine .link oldTail ?_ (by rw [hcombiners, hk]; exact (h.fresh k hnew).2.2)
      rw [List.tail_append_of_ne_nil hne, hk]
      exact List.mem_append_right _ (List.mem_singleton_self k)
    · rw [if_neg hk]
      exact (h.calls k').frame (by grind) (by grind) (by grind) (by grind) (by grind)
        (fun _ _ hin => by rw [List.tail_append_of_ne_nil hne]; exact List.mem_append_left _ hin) (by grind)
        fun r max i hspin _ => by
          have hat : s.serves k' = some r := serves_of (by rw [hspin]; rfl)
          have hin := (h.mem_asked hat).1
          grind

/-- A request that is not linked yet is behind the one that the swap has returned. -/
theorem CombineInv.linkAt {oldTail : Nat} (h : CombineInv s gone queue) (hpc : s.pc k = .link oldTail) :
    s.combiner k = false ∧ ∃ i, queue[i]? = some oldTail ∧ queue[i + 1]? = some k ∧ s.next oldTail = none := by
  obtain ⟨hin, hflag⟩ : k ∈ queue.tail ∧ s.combiner k = false := by
    have hcall := h.calls k
    rw [hpc] at hcall
    cases hcall with
    | link _ hin hflag => exact ⟨hin, hflag⟩
  obtain ⟨i, hi⟩ : ∃ i, queue[i + 1]? = some k := by
    obtain ⟨i, hi⟩ := List.mem_iff_getElem?.mp hin
    exact ⟨i, by rw [List.getElem?_tail] at hi; exact hi⟩
  have hlt := (List.getElem?_eq_some_iff.mp hi).1
  obtain ⟨a, ha⟩ : ∃ a, queue[i]? = some a := ⟨_, List.getElem?_eq_getElem (by omega)⟩
  rcases h.joined i a k ha hi with ⟨-, hnot⟩ | ⟨hnone, hlink⟩
  · exact absurd hpc (hnot oldTail)
  · rw [hpc, CombinePc.link.injEq] at hlink
    exact ⟨hflag, i, by rw [hlink]; exact ha, hi, by rw [hlink]; exact hnone⟩

/-- `__next` is stored. -/
theorem CombineInv.link {oldTail : Nat} (h : CombineInv s gone queue) (hpc : s.pc k = .link oldTail)
    (hs' : s' = { s with
      next := Function.update s.next oldTail (some k)
      pc := Function.update s.pc k (if s.nonBlocking k then .returned else .poll) }) : CombineInv s' gone queue := by
  obtain ⟨hflag, i, hat, hi, hnone⟩ := h.linkAt hpc
  have hbefore : queue[i]? = some oldTail ∧ s.next oldTail = none := ⟨hat, hnone⟩
  have hlt := (List.getElem?_eq_some_iff.mp hi).1
  have hinj : ∀ {j j' a : Nat}, queue[j]? = some a → queue[j']? = some a → j = j' := by
    intro j j' a hj hj'
    exact (List.getElem?_inj (List.getElem?_eq_some_iff.mp hj).1 h.nodup_queue).mp (hj.trans hj'.symm)
  have hpc' : ∀ k', s'.pc k' = if k' = k then if s.nonBlocking k then .returned else .poll else s.pc k' := by
    intro k'
    rw [hs']
    exact Function.update_apply _ _ _ _
  have hnext' : ∀ a, s'.next a = if a = oldTail then some k else s.next a := by
    intro a
    rw [hs']
    exact Function.update_apply _ _ _ _
  have hnotLink : ∀ o, s'.pc k ≠ .link o := by
    intro o
    rw [hpc', if_pos rfl]
    split <;> simp
  have hsame : s'.asked = s.asked ∧ s'.nonBlocking = s.nonBlocking ∧ s'.done = s.done ∧ s'.combiner = s.combiner ∧
      s'.executed = s.executed ∧ s'.reqTail = s.reqTail := by simp [hs']
  obtain ⟨hasked, hwaits, hdones, hcombiners, hexec, htail'⟩ := hsame
  have hserves : ∀ k', s'.serves k' = s.serves k' := by
    intro k'
    by_cases hk : k' = k
    · rw [hk]
      unfold Combining.serves
      rw [hpc', hpc, if_pos rfl, hcombiners, hflag]
      split <;> rfl
    · exact serves_congr (by rw [hpc', if_neg hk]) (by rw [hs'])
  refine ⟨?_, ?_, ?_, ?_, ?_, ?_, ?_, ?_, ?_, ?_, ?_, ?_, ?_, ?_, ?_⟩
  · rw [hasked, h.asked]
  · rw [hasked]
    exact h.nodup
  · rw [htail', h.reqTail]
  · intro j a b ha hb
    by_cases hj : j = i
    · subst hj
      rw [hbefore.1, Option.some.injEq] at ha
      rw [hi, Option.some.injEq] at hb
      subst ha hb
      exact Or.inl ⟨by rw [hnext', if_pos rfl], hnotLink⟩
    · have hjoined := h.joined j a b ha hb
      unfold Combining.Joined at hjoined ⊢
      have hne : a ≠ oldTail := fun heq => hj (hinj ha (heq ▸ hbefore.1))
      have hne' : b ≠ k := fun heq => hj (Nat.add_right_cancel (hinj hb (heq ▸ hi)))
      rw [hnext', if_neg hne, hpc', if_neg hne']
      exact hjoined
  · intro r hr
    rw [hnext', if_neg]
    · exact h.last r hr
    · intro heq
      rw [List.getLast?_eq_getElem?, heq] at hr
      have hsame := hinj hr hbefore.1
      omega
  · intro k' r hr
    rw [hserves] at hr
    have hs := h.serves k' r hr
    rw [hpc', hexec]
    have hk : k' ≠ k := by
      intro hk
      rw [hk, serves_at (by rw [hpc]; rfl), hpc] at hr
      simp [CombinePc.at] at hr
    rw [if_neg hk]
    exact hs
  · intro k₁ k₂ r r' h1 h2
    rw [hserves] at h1 h2
    exact h.one k₁ k₂ r r' h1 h2
  · intro hne
    obtain ⟨k', r, hr⟩ := h.busy hne
    exact ⟨k', r, by rw [hserves, hr]⟩
  · rw [hexec]
    exact h.quiet
  · intro k' hk'
    have hold : oldTail ∈ s.asked := by
      rw [h.asked]
      exact List.mem_append_right _ (List.mem_of_getElem? hbefore.1)
    rw [hasked] at hk'
    have hne : k' ≠ oldTail := fun heq => hk' (heq ▸ hold)
    rw [hnext', if_neg hne, hdones, hcombiners]
    exact h.fresh k' hk'
  · intro k'
    have hcalled := h.called k'
    grind
  · rw [hdones]
    exact h.doneGone
  · intro k' hk'
    have hgone := h.goneDone k' hk'
    grind
  · intro k₁ k₂ r h1 h2
    have hlast := h.lastOne k₁ k₂ r
    grind
  · intro k'
    rw [hpc']
    by_cases hk : k' = k
    · rw [if_pos hk]
      by_cases hw : s.nonBlocking k = true
      · rw [if_pos hw]
        exact .returned (Or.inr (by rw [hwaits, hk, hw]))
      · rw [if_neg hw]
        exact .poll (by rw [hwaits, hk]; simpa using hw)
    · rw [if_neg hk]
      exact (h.calls k').frame (by grind) (by grind) (by grind) (by grind) (by grind) (by grind) (by grind)
        (by grind)

/-- `exec_op` returns. -/
theorem CombineInv.executed {max i : Nat} (h : CombineInv s gone queue) (hpc : s.pc k = .inside r max i)
    (hs' : s' = { s with executed := s.executed ++ [r], pc := Function.update s.pc k (.next r max i) }) :
    CombineInv s' gone queue := by
  have hpc' : ∀ k', s'.pc k' = if k' = k then .next r max i else s.pc k' := by
    intro k'
    rw [hs']
    exact Function.update_apply _ _ _ _
  have hsame : s'.asked = s.asked ∧ s'.nonBlocking = s.nonBlocking ∧ s'.done = s.done ∧ s'.combiner = s.combiner ∧
      s'.executed = s.executed ++ [r] ∧ s'.reqTail = s.reqTail ∧ s'.next = s.next := by simp [hs']
  obtain ⟨hasked, hwaits, hdones, hcombiners, hexec, htail', hnexts⟩ := hsame
  have hat : s.serves k = some r := serves_of (by rw [hpc]; rfl)
  obtain ⟨hhead, hdone⟩ := h.serves k r hat
  rw [hpc] at hdone
  have hserves : ∀ k', s'.serves k' = s.serves k' := by
    intro k'
    by_cases hk : k' = k
    · rw [hk, hat, serves_at (by rw [hpc', if_pos rfl]; rfl), hpc', if_pos rfl]
      rfl
    · exact serves_congr (by rw [hpc', if_neg hk]) (by rw [hs'])
  have hown : r = k ∨ s.done k = true := by
    have hcall := h.calls k
    rw [hpc] at hcall
    cases hcall with
    | inside _ _ _ hown => exact hown
  refine ⟨?_, ?_, ?_, ?_, ?_, ?_, ?_, ?_, ?_, ?_, ?_, ?_, ?_, ?_, ?_⟩
  · rw [hasked, h.asked]
  · rw [hasked]
    exact h.nodup
  · rw [htail', h.reqTail]
  · intro j a b ha hb
    have hjoined := h.joined j a b ha hb
    unfold Combining.Joined at hjoined ⊢
    grind
  · rw [hnexts]
    exact h.last
  · intro k' r' hr
    rw [hserves] at hr
    obtain rfl := h.one k' k r' r hr hat
    rw [hat, Option.some.injEq] at hr
    rw [← hr]
    refine ⟨hhead, ?_⟩
    rw [hexec, hdone, hpc', if_pos rfl]
    simp [CombinePc.after]
  · intro k₁ k₂ r r' h1 h2
    rw [hserves] at h1 h2
    exact h.one k₁ k₂ r r' h1 h2
  · exact fun _ => ⟨k, r, by rw [hserves, hat]⟩
  · intro hempty
    rw [hempty] at hhead
    simp at hhead
  · rw [hasked, hnexts, hdones, hcombiners]
    exact h.fresh
  · intro k'
    have hcalled := h.called k'
    grind
  · rw [hdones]
    exact h.doneGone
  · intro k' hk'
    have hgone := h.goneDone k' hk'
    grind
  · intro k₁ k₂ r h1 h2
    have hlast := h.lastOne k₁ k₂ r
    grind
  · intro k'
    rw [hpc']
    by_cases hk : k' = k
    · rw [if_pos hk]
      exact .next r max i (by rw [hk, hdones]; exact hown)
    · rw [if_neg hk]
      exact (h.calls k').frame (by grind) (by grind) (by grind) (by grind) (by grind) (by grind) (by grind)
        (by grind)

/-- The last one leaves the queue. -/
theorem CombineInv.leave {max i : Nat} (h : CombineInv s gone queue) (hpc : s.pc k = .cas r max i) (htail : s.reqTail = some r)
    (hs' : s' = { s with reqTail := none, pc := Function.update s.pc k (.letLastGo r) }) : CombineInv s' (gone ++ [r]) [] := by
  have hpc' : ∀ k', s'.pc k' = if k' = k then .letLastGo r else s.pc k' := by
    intro k'
    rw [hs']
    exact Function.update_apply _ _ _ _
  have hsame : s'.asked = s.asked ∧ s'.nonBlocking = s.nonBlocking ∧ s'.done = s.done ∧ s'.combiner = s.combiner ∧
      s'.executed = s.executed ∧ s'.reqTail = none ∧ s'.next = s.next := by simp [hs']
  obtain ⟨hasked, hwaits, hdones, hcombiners, hexec, htail', hnexts⟩ := hsame
  have hat : s.serves k = some r := serves_of (by rw [hpc]; rfl)
  obtain ⟨hhead, hdone⟩ := h.serves k r hat
  rw [hpc] at hdone
  -- first and last
  have hqueue : queue = [r] := by
    rw [h.reqTail] at htail
    cases hq : queue with
    | nil => simp [hq] at hhead
    | cons a q =>
        rw [hq, List.head?_cons, Option.some.injEq] at hhead
        subst hhead
        have hnodup := h.nodup_queue
        rw [hq] at hnodup htail
        cases q with
        | nil => rfl
        | cons b q =>
            rw [List.getLast?_cons_cons] at htail
            exact absurd (List.mem_of_getLast? htail) (List.nodup_cons.mp hnodup).1
  have hnone : ∀ k', s'.serves k' = none := by
    intro k'
    by_cases hk : k' = k
    · rw [hk, serves_at (by rw [hpc', if_pos rfl]; rfl), hpc', if_pos rfl]
      rfl
    · rw [serves_congr (s := s) (by rw [hpc', if_neg hk]) (by rw [hs'])]
      by_contra hne
      obtain ⟨r', hr'⟩ := Option.ne_none_iff_exists'.mp hne
      exact hk (h.one k' k r' r hr' hat)
  obtain ⟨hnotGone, hnotDone⟩ := h.pending (h.mem_asked hat).1
  have hown : r = k ∨ s.done k = true := by
    have hcall := h.calls k
    rw [hpc] at hcall
    cases hcall with
    | cas _ _ _ hown => exact hown
  refine ⟨?_, ?_, ?_, ?_, ?_, ?_, ?_, ?_, ?_, ?_, ?_, ?_, ?_, ?_, ?_⟩
  · rw [hasked, h.asked, hqueue, List.append_nil]
  · rw [hasked]
    exact h.nodup
  · rw [htail']
    rfl
  · simp
  · simp
  · simp [hnone]
  · simp [hnone]
  · simp
  · intro _
    rw [hexec, hdone]
    rfl
  · rw [hasked, hnexts, hdones, hcombiners]
    exact h.fresh
  · intro k'
    have hcalled := h.called k'
    grind
  · intro k' hk'
    rw [hdones] at hk'
    exact List.mem_append_left _ (h.doneGone k' hk')
  · intro k' hk'
    have hgone := h.goneDone k'
    grind
  · intro k₁ k₂ r' h1 h2
    have hlast := h.lastOne k₁ k₂ r'
    have hother : ∀ k', s.pc k' ≠ .letLastGo r := by
      intro k' hlast'
      have hcall := h.calls k'
      rw [hlast'] at hcall
      cases hcall with
      | letLastGo _ _ hgone => exact hnotGone hgone
    grind
  · intro k'
    rw [hpc']
    by_cases hk : k' = k
    · rw [if_pos hk]
      exact .letLastGo r (by rw [hk, hdones]; exact hown) (by simp) (by rw [hdones]; exact hnotDone)
    · rw [if_neg hk]
      refine (h.calls k').frame (by grind) (by grind) (by grind) (by grind) (by grind) (fun o _ hin => ?_) (by grind)
        (by simp)
      rw [hqueue] at hin
      simp at hin

/-- A waiter is let go. -/
theorem CombineInv.letGo {max i rNext : Nat} (h : CombineInv s gone queue) (hpc : s.pc k = .letGo r max i rNext)
    (hs' : s' = { s with
      done := Function.update s.done r true
      pc := Function.update s.pc k (if i = 0 then .look rNext max else .exec rNext max (i - 1)) }) :
    CombineInv s' (gone ++ [r]) queue.tail := by
  obtain ⟨hown, hnext⟩ : (r = k ∨ s.done k = true) ∧ s.next r = some rNext := by
    have hcall := h.calls k
    rw [hpc] at hcall
    cases hcall with
    | letGo _ _ _ _ hown hnext => exact ⟨hown, hnext⟩
  have hat : s.serves k = some r := serves_of (by rw [hpc]; rfl)
  obtain ⟨hhead, hdone⟩ := h.serves k r hat
  rw [hpc] at hdone
  obtain ⟨q, hqueue, hnotLink⟩ : ∃ q, queue = r :: rNext :: q ∧ ∀ o, s.pc rNext ≠ .link o := by
    cases hq : queue with
    | nil => simp [hq] at hhead
    | cons a q =>
        rw [hq, List.head?_cons, Option.some.injEq] at hhead
        subst hhead
        cases q with
        | nil =>
            have hlast := h.last a (by rw [hq]; rfl)
            simp [hlast] at hnext
        | cons b q =>
            rcases h.joined 0 a b (by rw [hq]; rfl) (by rw [hq]; rfl) with ⟨hb, hnot⟩ | ⟨hnone, -⟩
            · rw [hnext, Option.some.injEq] at hb
              exact ⟨q, by rw [hb], by rw [hb]; exact hnot⟩
            · simp [hnone] at hnext
  subst hqueue
  have hpc' : ∀ k', s'.pc k' = if k' = k then if i = 0 then .look rNext max else .exec rNext max (i - 1) else s.pc k' := by
    intro k'
    rw [hs']
    exact Function.update_apply _ _ _ _
  have hdone' : ∀ a, s'.done a = if a = r then true else s.done a := by
    intro a
    rw [hs']
    exact Function.update_apply _ _ _ _
  have hsame : s'.asked = s.asked ∧ s'.nonBlocking = s.nonBlocking ∧ s'.combiner = s.combiner ∧
      s'.executed = s.executed ∧ s'.reqTail = s.reqTail ∧ s'.next = s.next := by simp [hs']
  obtain ⟨hasked, hwaits, hcombiners, hexec, htail', hnexts⟩ := hsame
  have hserves : ∀ k', s'.serves k' = if k' = k then some rNext else none := by
    intro k'
    by_cases hk : k' = k
    · rw [hk, if_pos rfl, serves_at (by rw [hpc', if_pos rfl]; split <;> rfl), hpc', if_pos rfl]
      split <;> rfl
    · rw [if_neg hk, serves_congr (s := s) (by rw [hpc', if_neg hk]) (by rw [hs'])]
      by_contra hne
      obtain ⟨r', hr'⟩ := Option.ne_none_iff_exists'.mp hne
      exact hk (h.one k' k r' r hr' hat)
  have hnotGone := (h.pending List.mem_cons_self).1
  refine ⟨?_, ?_, ?_, ?_, ?_, ?_, ?_, ?_, ?_, ?_, ?_, ?_, ?_, ?_, ?_⟩
  · rw [hasked, h.asked]
    simp
  · rw [hasked]
    exact h.nodup
  · rw [htail', h.reqTail]
    rfl
  · intro j a b ha hb
    have hjoined := h.joined (j + 1) a b ha hb
    unfold Combining.Joined at hjoined ⊢
    grind
  · intro r' hr'
    rw [hnexts]
    exact h.last r' hr'
  · intro k' r' hr'
    rw [hserves] at hr'
    rw [hexec, hdone, hpc']
    grind [CombinePc.after]
  · grind
  · exact fun _ => ⟨k, rNext, by rw [hserves, if_pos rfl]⟩
  · simp
  · intro k' hk'
    rw [hasked] at hk'
    have hne : k' ≠ r := by
      intro heq
      rw [heq, h.asked] at hk'
      simp at hk'
    rw [hnexts, hdone', if_neg hne, hcombiners]
    exact h.fresh k' hk'
  · intro k'
    have hcalled := h.called k'
    grind
  · intro k' hk'
    have hgone := h.doneGone k'
    grind
  · intro k' hk'
    have hgone := h.goneDone k'
    grind
  · intro k₁ k₂ r' h1 h2
    have hlast := h.lastOne k₁ k₂ r'
    grind
  · intro k'
    rw [hpc']
    by_cases hk : k' = k
    · have hdoneK : s'.done k' = true := by
        rw [hdone', hk]
        rcases hown with hr | hd
        · rw [if_pos hr.symm]
        · rw [hd, ite_self]
      rw [if_pos hk]
      by_cases hi : i = 0
      · rw [if_pos hi]
        exact .look rNext max hdoneK
      · rw [if_neg hi]
        exact .exec rNext max _ (Or.inr hdoneK)
    · rw [if_neg hk]
      have hcall := h.calls k'
      refine hcall.frame (by grind) (by grind) (by grind) (by grind) (fun r' hlast hd => ?_) (fun o hlink hin => ?_) (by grind)
        (by simp)
      · rw [hlast] at hcall
        cases hcall with
        | letLastGo _ _ hgone =>
            have hne : r' ≠ r := fun heq => hnotGone (heq ▸ hgone)
            rw [hdone', if_neg hne]
            exact hd
      · -- the next one is linked already
        rcases List.mem_cons.mp hin with heq | hin
        · rw [heq] at hlink
          exact absurd hlink (hnotLink o)
        · exact hin

/-- The last one is let go. -/
theorem CombineInv.letLastGo (h : CombineInv s gone queue) (hpc : s.pc k = .letLastGo r)
    (hs' : s' = { s with done := Function.update s.done r true, pc := Function.update s.pc k .returned }) :
    CombineInv s' gone queue := by
  obtain ⟨hown, hgone⟩ : (r = k ∨ s.done k = true) ∧ r ∈ gone := by
    have hcall := h.calls k
    rw [hpc] at hcall
    cases hcall with
    | letLastGo _ hown hgone => exact ⟨hown, hgone⟩
  have hpc' : ∀ k', s'.pc k' = if k' = k then .returned else s.pc k' := by
    intro k'
    rw [hs']
    exact Function.update_apply _ _ _ _
  have hdone' : ∀ a, s'.done a = if a = r then true else s.done a := by
    intro a
    rw [hs']
    exact Function.update_apply _ _ _ _
  have hsame : s'.asked = s.asked ∧ s'.nonBlocking = s.nonBlocking ∧ s'.combiner = s.combiner ∧
      s'.executed = s.executed ∧ s'.reqTail = s.reqTail ∧ s'.next = s.next := by simp [hs']
  obtain ⟨hasked, hwaits, hcombiners, hexec, htail', hnexts⟩ := hsame
  have hserves : ∀ k', s'.serves k' = s.serves k' := by
    intro k'
    by_cases hk : k' = k
    · rw [hk, serves_at (by rw [hpc', if_pos rfl]; rfl), serves_at (by rw [hpc]; rfl), hpc', if_pos rfl, hpc]
      rfl
    · exact serves_congr (by rw [hpc', if_neg hk]) (by rw [hs'])
  refine ⟨?_, ?_, ?_, ?_, ?_, ?_, ?_, ?_, ?_, ?_, ?_, ?_, ?_, ?_, ?_⟩
  · rw [hasked, h.asked]
  · rw [hasked]
    exact h.nodup
  · rw [htail', h.reqTail]
  · intro j a b ha hb
    have hjoined := h.joined j a b ha hb
    unfold Combining.Joined at hjoined ⊢
    grind
  · rw [hnexts]
    exact h.last
  · intro k' r' hr
    rw [hserves] at hr
    have hs := h.serves k' r' hr
    have hk : k' ≠ k := by
      intro hk
      rw [hk, serves_at (by rw [hpc]; rfl), hpc] at hr
      simp [CombinePc.at] at hr
    rw [hexec, hpc', if_neg hk]
    exact hs
  · intro k₁ k₂ r r' h1 h2
    rw [hserves] at h1 h2
    exact h.one k₁ k₂ r r' h1 h2
  · intro hne
    obtain ⟨k', r', hr⟩ := h.busy hne
    exact ⟨k', r', by rw [hserves, hr]⟩
  · rw [hexec]
    exact h.quiet
  · intro k' hk'
    rw [hasked] at hk'
    have hne : k' ≠ r := by
      intro heq
      rw [heq, h.asked] at hk'
      exact hk' (List.mem_append_left _ hgone)
    rw [hnexts, hdone', if_neg hne, hcombiners]
    exact h.fresh k' hk'
  · intro k'
    have hcalled := h.called k'
    grind
  · intro k' hk'
    have hold := h.doneGone k'
    grind
  · intro k' hk'
    have hold := h.goneDone k' hk'
    grind
  · intro k₁ k₂ r' h1 h2
    have hlast := h.lastOne k₁ k₂ r'
    grind
  · intro k'
    rw [hpc']
    by_cases hk : k' = k
    · rw [if_pos hk]
      refine .returned (Or.inl ?_)
      rw [hdone', hk]
      rcases hown with hr | hd
      · rw [if_pos hr.symm]
      · rw [hd, ite_self]
    · rw [if_neg hk]
      refine (h.calls k').frame (by grind) (by grind) (by grind) (by grind) (fun r' hlast hd => ?_) (by grind) (by grind)
        (by grind)
      have hne : r' ≠ r := fun heq => hk (h.lastOne k' k r (heq ▸ hlast) hpc)
      rw [hdone', if_neg hne]
      exact hd

/-- Who is in front when the role is handed over waits for it. -/
theorem CombineInv.hands (h : CombineInv s gone queue) (hpc : s.pc k = .handOver r) :
    s.done k = true ∧ queue.head? = some r ∧ r ∉ queue.tail ∧ r ≠ k ∧ (s.pc r).waits = true := by
  obtain ⟨hdoneK, hblocks⟩ : s.done k = true ∧ s.nonBlocking r = false := by
    have hcall := h.calls k
    rw [hpc] at hcall
    cases hcall with
    | handOver _ hdone hblocks => exact ⟨hdone, hblocks⟩
  have hat : s.serves k = some r := serves_of (by rw [hpc]; rfl)
  have hhead := (h.serves k r hat).1
  obtain ⟨hin, hinAsked⟩ := h.mem_asked hat
  obtain ⟨hnotGone, hnotDone⟩ := h.pending hin
  have hnotTail : r ∉ queue.tail := by
    have hq := h.nodup_queue
    cases queue with
    | nil => simp
    | cons a q =>
        rw [List.head?_cons, Option.some.injEq] at hhead
        subst hhead
        exact (List.nodup_cons.mp hq).1
  have hne : r ≠ k := by
    intro heq
    rw [heq, hdoneK] at hnotDone
    simp at hnotDone
  refine ⟨hdoneK, hhead, hnotTail, hne, ?_⟩
  have hcalled := (h.called r).not.mp (not_not.mpr hinAsked)
  have hother : s.serves r = none := by
    by_contra hsome
    obtain ⟨r', hr'⟩ := Option.ne_none_iff_exists'.mp hsome
    exact hne (h.one r k r' r hr' hat)
  have hcall := h.calls r
  unfold Combining.serves at hother
  generalize hp : s.pc r = p at hcall hcalled hother
  cases hcall with
  | idle => simp at hcalled
  | ask => simp at hcalled
  | link o hmem => exact absurd hmem hnotTail
  | poll => rfl
  | role => rfl
  | letLastGo r' hown hg =>
      rcases hown with heq | hd
      · exact absurd (heq ▸ hg) hnotGone
      · simp [hnotDone] at hd
  | returned hd => simp [hnotDone, hblocks] at hd
  | _ => simp [CombinePc.waits, CombinePc.at] at hother

/-- The role is handed over. -/
theorem CombineInv.handOver (h : CombineInv s gone queue) (hpc : s.pc k = .handOver r)
    (hs' : s' = { s with combiner := Function.update s.combiner r true, pc := Function.update s.pc k .returned }) :
    CombineInv s' gone queue := by
  obtain ⟨hdoneK, hhead, hnotTail, hne, hwait⟩ := h.hands hpc
  have hat : s.serves k = some r := serves_of (by rw [hpc]; rfl)
  have hdone := (h.serves k r hat).2
  rw [hpc] at hdone
  have hinAsked := (h.mem_asked hat).2
  have hpc' : ∀ k', s'.pc k' = if k' = k then .returned else s.pc k' := by
    intro k'
    rw [hs']
    exact Function.update_apply _ _ _ _
  have hcombiner' : ∀ a, s'.combiner a = if a = r then true else s.combiner a := by
    intro a
    rw [hs']
    exact Function.update_apply _ _ _ _
  have hsame : s'.asked = s.asked ∧ s'.nonBlocking = s.nonBlocking ∧ s'.done = s.done ∧
      s'.executed = s.executed ∧ s'.reqTail = s.reqTail ∧ s'.next = s.next := by simp [hs']
  obtain ⟨hasked, hwaits, hdones, hexec, htail', hnexts⟩ := hsame
  have hserves : ∀ k', s'.serves k' = if k' = r then some r else none := by
    intro k'
    by_cases hk : k' = r
    · unfold Combining.serves
      rw [hk, hpc', if_neg hne, hwait, hcombiner', if_pos rfl, if_pos rfl, if_pos rfl, if_pos rfl]
    · rw [if_neg hk]
      by_cases hk' : k' = k
      · rw [hk', serves_at (by rw [hpc', if_pos rfl]; rfl), hpc', if_pos rfl]
        rfl
      · rw [serves_congr (s := s) (by rw [hpc', if_neg hk']) (by rw [hcombiner', if_neg hk])]
        by_contra hsome
        obtain ⟨r', hr'⟩ := Option.ne_none_iff_exists'.mp hsome
        exact hk' (h.one k' k r' r hr' hat)
  refine ⟨?_, ?_, ?_, ?_, ?_, ?_, ?_, ?_, ?_, ?_, ?_, ?_, ?_, ?_, ?_⟩
  · rw [hasked, h.asked]
  · rw [hasked]
    exact h.nodup
  · rw [htail', h.reqTail]
  · intro j a b ha hb
    have hjoined := h.joined j a b ha hb
    unfold Combining.Joined at hjoined ⊢
    grind
  · rw [hnexts]
    exact h.last
  · intro k' r' hr
    rw [hserves] at hr
    have hk : k' = r := by grind
    have hr' : r' = r := by grind
    rw [hk, hr', hexec, hdone, hpc', if_neg hne]
    refine ⟨hhead, ?_⟩
    cases hp : s.pc r <;> simp_all [CombinePc.waits, CombinePc.after]
  · grind
  · exact fun _ => ⟨r, r, by rw [hserves, if_pos rfl]⟩
  · rw [hexec]
    exact h.quiet
  · intro k' hk'
    rw [hasked] at hk'
    have hne' : k' ≠ r := fun heq => hk' (heq ▸ hinAsked)
    rw [hnexts, hdones, hcombiner', if_neg hne']
    exact h.fresh k' hk'
  · intro k'
    have hcalled := h.called k'
    grind
  · rw [hdones]
    exact h.doneGone
  · intro k' hk'
    have hold := h.goneDone k' hk'
    grind
  · intro k₁ k₂ r' h1 h2
    have hlast := h.lastOne k₁ k₂ r'
    grind
  · intro k'
    rw [hpc']
    by_cases hk : k' = k
    · rw [if_pos hk]
      exact .returned (Or.inl (by rw [hdones, hk, hdoneK]))
    · rw [if_neg hk]
      have hcall := h.calls k'
      refine hcall.frame (by grind) (by grind) (by grind) (by grind) (by grind) (by grind) (fun o hlink => ?_)
        (by grind)
      rw [hlink] at hcall
      cases hcall with
      | link _ hmem =>
          have hne' : k' ≠ r := fun heq => hnotTail (heq ▸ hmem)
          rw [hcombiner', if_neg hne']

/-- A combiner that stays at its request. -/
theorem CombineInv.stay {p : CombinePc} (h : CombineInv s gone queue) (hpc : s.pc k = p) (hold : p.at = some r)
    (hnew : pc.at = some r) (hafter : pc.after = p.after) (hcall : CombinerOk s gone queue k pc) :
    CombineInv (s.goto k pc) gone queue := by
  have hself : (s.goto k pc).pc k = pc := Function.update_self _ _ _
  refine h.goto ?_ (by rw [hpc, hafter]) hcall ?_ ?_
  · rw [serves_of (s := s) (by rw [hpc, hold]), serves_of (by rw [hself, hnew])]
  · rw [hpc]
    cases p <;> simp_all [CombinePc.at]
  · cases pc <;> simp_all [CombinePc.at]

/-- A waiter that keeps waiting. -/
theorem CombineInv.wait {p : CombinePc} (h : CombineInv s gone queue) (hpc : s.pc k = p) (hold : p.waits = true)
    (hnew : pc.waits = true) (hcall : CombinerOk s gone queue k pc) : CombineInv (s.goto k pc) gone queue := by
  have hself : (s.goto k pc).pc k = pc := Function.update_self _ _ _
  refine h.goto ?_ ?_ hcall ?_ ?_
  · rw [serves_waits (s := s) (by rw [hpc, hold]), serves_waits (by rw [hself, hnew])]
    rfl
  · rw [hpc]
    cases p <;> cases pc <;> simp_all [CombinePc.waits, CombinePc.after]
  · rw [hpc]
    cases p <;> simp_all [CombinePc.waits]
  · cases pc <;> simp_all [CombinePc.waits]

/-- **A step of a call keeps the invariant.** -/
theorem CombineInv.step (h : CombineInv s gone queue) (hrun : s.step k = some s') :
    ∃ gone' queue', CombineInv s' gone' queue' := by
  have hcall := h.calls k
  have hmove := step_move hrun
  generalize hpc : s.pc k = p at hmove hcall
  cases hmove with
  | askFirst htail =>
      have hempty : queue = [] := List.getLast?_eq_none_iff.mp (by rw [← h.reqTail, htail])
      subst hempty
      exact ⟨gone, [k], h.askFirst hpc rfl⟩
  | askBehind oldTail htail => exact ⟨gone, queue ++ [k], h.askBehind hpc htail rfl⟩
  | link oldTail => exact ⟨gone, queue, h.link hpc rfl⟩
  | polled hdone =>
      -- who is let go was not handed the role
      have hnone : s.serves k = none := by
        by_contra hne
        obtain ⟨r, hr⟩ := Option.ne_none_iff_exists'.mp hne
        have hqueue := (h.mem_asked hr).1
        have hself : r = k := by
          rw [serves_waits (by rw [hpc]; rfl)] at hr
          grind
        exact (h.pending (hself ▸ hqueue)).1 (h.doneGone k hdone)
      refine ⟨gone, queue, h.goto ?_ (by rw [hpc]; rfl) (.returned (Or.inl hdone)) (by simp [hpc]) (by simp)⟩
      rw [hnone, serves_at] <;> simp [Combining.goto, CombinePc.at, CombinePc.waits]
  | notYet hdone =>
      cases hcall with
      | poll hw => exact ⟨gone, queue, h.wait hpc rfl rfl (.role hw)⟩
  | combines hrole =>
      refine ⟨gone, queue, h.goto ?_ (by rw [hpc]; rfl) (.exec k _ _ (Or.inl rfl)) (by simp [hpc]) (by simp)⟩
      rw [serves_waits (s := s) (by rw [hpc]; rfl), if_pos hrole, serves_of]
      simp [Combining.goto, CombinePc.at]
  | waits hrole =>
      cases hcall with
      | role hw => exact ⟨gone, queue, h.wait hpc rfl rfl (.poll hw)⟩
  | exec r max i =>
      cases hcall with
      | exec _ _ _ hown => exact ⟨gone, queue, h.stay hpc rfl rfl rfl (.inside r max i hown)⟩
  | inside r max i => exact ⟨gone, queue, h.executed hpc rfl⟩
  | next r max i rNext hnext =>
      cases hcall with
      | next _ _ _ hown => exact ⟨gone, queue, h.stay hpc rfl rfl rfl (.letGo r max i rNext hown hnext)⟩
  | noNext r max i =>
      cases hcall with
      | next _ _ _ hown => exact ⟨gone, queue, h.stay hpc rfl rfl rfl (.cas r max i hown)⟩
  | leave r max i htail => exact ⟨gone ++ [r], [], h.leave hpc htail rfl⟩
  | notLast r max i htail =>
      cases hcall with
      | cas _ _ _ hown =>
          exact ⟨gone, queue, h.stay hpc rfl rfl rfl (.spin r max i hown (by rw [← h.reqTail]; exact htail))⟩
  | linked r max i rNext hnext =>
      cases hcall with
      | spin _ _ _ hown => exact ⟨gone, queue, h.stay hpc rfl rfl rfl (.letGo r max i rNext hown hnext)⟩
  | unlinked r max i => exact ⟨gone, queue, h⟩
  | letGo r max i rNext => exact ⟨gone ++ [r], queue.tail, h.letGo hpc rfl⟩
  | letLastGo r => exact ⟨gone, queue, h.letLastGo hpc rfl⟩
  | combineMore r max =>
      cases hcall with
      | look _ _ hown => exact ⟨gone, queue, h.stay hpc rfl rfl rfl (.exec r _ _ (Or.inr hown))⟩
  | found r max hblocks =>
      cases hcall with
      | look _ _ hown => exact ⟨gone, queue, h.stay hpc rfl rfl rfl (.handOver r hown hblocks)⟩
  | handOver r => exact ⟨gone, queue, h.handOver hpc rfl⟩

end Combining

/-! ### Runs -/

/-- What happens next to a queue. -/
inductive CombineAct where
  | call (k : Nat) (nonBlocking : Bool)
  | step (k : Nat)
  deriving DecidableEq, Repr

def CombineStep (s : Combining) : CombineAct → Combining → Prop
  | .call k nonBlocking, s' => s.call k nonBlocking = some s'
  | .step k, s' => s.step k = some s'

/-- What a queue is for. -/
structure CombineOk (s : Combining) : Prop where
  /-- One request is done at a time. -/
  alone : ∀ k k' r r' max max' i i', s.pc k = .inside r max i → s.pc k' = .inside r' max' i' → k = k'
  /-- The requests are done in the order of their swaps, -/
  order : s.executed <+: s.asked
  /-- and each once. -/
  once : s.executed.Nodup
  /-- A request that is let go has been done. -/
  done : ∀ r, s.done r = true → r ∈ s.executed
  /-- A call that waits returns when its request has been done. -/
  returned : ∀ k, s.pc k = .returned → s.nonBlocking k = false → s.done k = true
  /-- Nobody but its owner comes back to a request that is let go. -/
  released : ∀ k r, (s.pc k).at = some r ∨ s.pc k = .link r ∨ s.pc k = .letLastGo r → s.done r = false
  /-- The role is offered to nobody who does not wait. -/
  waits : ∀ k r, s.pc k = .handOver r → (s.pc r).waits = true

section Runs

variable {s s' : Combining} {gone queue : List Nat} {k r : Nat}

theorem combineInv_run (hrun : Runs CombineStep .new s) : ∃ gone queue, CombineInv s gone queue := by
  have hkeep : ∀ s a t, (∃ gone queue, CombineInv s gone queue) → CombineStep s a t →
      ∃ gone queue, CombineInv t gone queue := by
    intro s a t ⟨gone, queue, h⟩ hstep
    cases a with
    | call k nonBlocking => exact ⟨gone, queue, h.call hstep⟩
    | step k => exact h.step hstep
  exact hrun.invariant hkeep ⟨[], [], combineInv_new⟩

theorem CombineInv.ok (h : CombineInv s gone queue) : CombineOk s := by
  obtain ⟨done, hexec, hprefix⟩ : ∃ done, s.executed = gone ++ done ∧ done <+: queue := by
    by_cases hempty : queue = []
    · exact ⟨[], by simp [h.quiet hempty], List.nil_prefix⟩
    · obtain ⟨k, r, hr⟩ := h.busy hempty
      obtain ⟨hhead, hexec⟩ := h.serves k r hr
      obtain ⟨q, rfl⟩ := List.head?_eq_some_iff.mp hhead
      refine ⟨_, hexec, ?_⟩
      split <;> simp
  have horder : s.executed <+: s.asked := by
    rw [hexec, h.asked]
    exact (List.prefix_append_right_inj gone).mpr hprefix
  refine ⟨?_, horder, h.nodup.sublist horder.sublist, ?_, ?_, ?_, ?_⟩
  · intro k k' r r' max max' i i' hin hin'
    exact h.one k k' r r' (serves_of (by rw [hin]; rfl)) (serves_of (by rw [hin']; rfl))
  · intro r hr
    rw [hexec]
    exact List.mem_append_left _ (h.doneGone r hr)
  · intro k hpc hblocks
    have hcall := h.calls k
    rw [hpc] at hcall
    cases hcall with
    | returned hd => simpa [hblocks] using hd
  · intro k r hr
    rcases hr with hr | hr | hr
    · exact (h.pending (h.mem_asked (serves_of hr)).1).2
    · obtain ⟨-, i, hi, -⟩ := h.linkAt hr
      exact (h.pending (List.mem_of_getElem? hi)).2
    · have hcall := h.calls k
      rw [hr] at hcall
      cases hcall with
      | letLastGo _ _ _ hnot => exact hnot
  · intro k r hr
    exact (h.hands hr).2.2.2.2

/-- **A combining queue.**  However calls are interleaved, one request is done at a time, in the
order of their swaps, each once and before its owner goes on. -/
theorem combining_run (hrun : Runs CombineStep .new s) : CombineOk s := by
  obtain ⟨gone, queue, h⟩ := combineInv_run hrun
  exact h.ok

/-! ### Two calls -/

def combineRun (s : Combining) (as : List CombineAct) : Option Combining :=
  as.foldlM (fun s a => match a with
    | .call k nonBlocking => s.call k nonBlocking
    | .step k => s.step k) s

theorem runs_of_combineRun {as : List CombineAct} (h : combineRun s as = some s') : Runs CombineStep s s' := by
  induction as generalizing s with
  | nil =>
      cases h
      exact Runs.refl _
  | cons a as ih =>
      obtain ⟨s₁, hstep, hrest⟩ := Option.bind_eq_some_iff.mp h
      refine (Runs.single (a := a) ?_).trans (ih hrest)
      cases a with
      | call k nonBlocking => exact hstep
      | step k => exact hstep

/-- One call does the request of another one that comes while it is in `exec_op`. -/
def twoCalls : List CombineAct :=
  [.call 0 false, .call 1 false, .step 0, .step 0, .step 1, .step 0, .step 1, .step 0, .step 1, .step 0, .step 0, .step 0, .step 0, .step 0]

/-- What is seen of two calls. -/
def Combining.view (s : Combining) : List Nat × CombinePc × CombinePc := (s.executed, s.pc 0, s.pc 1)

theorem combining_run_twoCalls :
    ∃ s, combineRun .new twoCalls = some s ∧ s.view = ([0, 1], .letLastGo 1, .role) ∧ CombineOk s := by
  have hview : (combineRun .new twoCalls).map Combining.view = some ([0, 1], .letLastGo 1, .role) := by decide +kernel
  obtain ⟨s, hs, hview⟩ := Option.map_eq_some_iff.mp hview
  exact ⟨s, hs, hview, combining_run (runs_of_combineRun hs)⟩

end Runs

end Parfs
