/-
Replaying a log of puts and deletes.

A log holds records, each of them about one key: it puts a value under the key or deletes what
is there.  A replay starts with the empty table and fails at a put under a key that is taken.

A log can be rewritten without telling on its replay.  A put that no later record of its key
follows can be taken out, and takes its key out of the table.  A put and the delete that
answers it can be taken out together, and change nothing.  Both come down to one fact: a record
does to the table what it does to its own key.

The second part is about the newest of some records, when each of them carries a number that
grows but records may be rewritten later.
-/
import Mathlib.Logic.Function.Basic
import Mathlib.Data.List.Nodup

namespace Parfs.Lib

section Replay

variable {R K V : Type} [DecidableEq K] {key : R → K} {put : R → Option V}

/-- A put under a key that is taken fails. -/
def replayRecord (key : R → K) (put : R → Option V) (t : K → Option V) (r : R) : Option (K → Option V) :=
  match put r with
  | some v => if t (key r) = none then some (Function.update t (key r) (some v)) else none
  | none => some (Function.update t (key r) none)

def replay (key : R → K) (put : R → Option V) : List R → (K → Option V) → Option (K → Option V)
  | [], t => some t
  | r :: l, t => (replayRecord key put t r).bind (replay key put l)

variable {t t' : K → Option V} {r d : R} {l A B C : List R} {k : K} {v : V}

@[simp] theorem replay_nil : replay key put [] t = some t := rfl

theorem replay_cons : replay key put (r :: l) t = (replayRecord key put t r).bind (replay key put l) := rfl

theorem replay_append : replay key put (A ++ B) t = (replay key put A t).bind (replay key put B) := by
  induction A generalizing t with
  | nil => rfl
  | cons r A ih =>
      rw [List.cons_append, replay_cons, replay_cons, Option.bind_assoc]
      exact Option.bind_congr fun t' _ => ih

theorem replayRecord_put (hput : put r = some v) :
    replayRecord key put t r = some t' ↔ t (key r) = none ∧ t' = Function.update t (key r) (some v) := by
  unfold replayRecord
  rw [hput]
  dsimp only
  split
  · rename_i hfree
    simp [hfree, eq_comm]
  · rename_i htaken
    simp [htaken]

theorem replayRecord_delete (hput : put r = none) :
    replayRecord key put t r = some (Function.update t (key r) none) := by
  unfold replayRecord
  rw [hput]

/-- A record leaves the other keys alone. -/
theorem replayRecord_of_ne (h : replayRecord key put t r = some t') (hne : key r ≠ k) : t' k = t k := by
  cases hput : put r with
  | some v =>
      obtain ⟨-, rfl⟩ := (replayRecord_put hput).mp h
      exact Function.update_of_ne (Ne.symm hne) _ _
  | none =>
      rw [replayRecord_delete hput, Option.some.injEq] at h
      rw [← h]
      exact Function.update_of_ne (Ne.symm hne) _ _

/-- What a record does to its own key does not depend on the others. -/
theorem replayRecord_update (hne : key r ≠ k) (x : Option V) :
    replayRecord key put (Function.update t k x) r =
      (replayRecord key put t r).map fun t' => Function.update t' k x := by
  unfold replayRecord
  cases put r with
  | some v =>
      dsimp only
      rw [Function.update_of_ne hne]
      split
      · rw [Option.map_some, Function.update_comm hne]
      · rfl
  | none =>
      dsimp only
      rw [Option.map_some, Function.update_comm hne]

theorem replay_update (hne : ∀ r ∈ l, key r ≠ k) (x : Option V) :
    replay key put l (Function.update t k x) = (replay key put l t).map fun t' => Function.update t' k x := by
  induction l generalizing t with
  | nil => rfl
  | cons r l ih =>
      rw [replay_cons, replay_cons, replayRecord_update (hne r List.mem_cons_self)]
      cases replayRecord key put t r with
      | none => rfl
      | some t' => exact ih fun r' hr' => hne r' (List.mem_cons_of_mem _ hr')

theorem replay_congr {key' : R → K} {put' : R → Option V}
    (hsame : ∀ r ∈ l, key' r = key r ∧ put' r = put r) : replay key' put' l t = replay key put l t := by
  induction l generalizing t with
  | nil => rfl
  | cons r l ih =>
      obtain ⟨hkey, hput⟩ := hsame r List.mem_cons_self
      have hrecord : replayRecord key' put' t r = replayRecord key put t r := by
        unfold replayRecord
        rw [hkey, hput]
      rw [replay_cons, replay_cons, hrecord]
      exact Option.bind_congr fun t' _ => ih fun r' hr' => hsame r' (List.mem_cons_of_mem _ hr')

/-- The value under a key was put there by the last record of the key. -/
theorem replay_value (h : replay key put l t = some t') (hv : t' k = some v)
    (hother : ∀ r ∈ l, put r ≠ some v) : t k = some v ∧ ∀ r ∈ l, key r ≠ k := by
  induction l generalizing t with
  | nil =>
      rw [replay_nil, Option.some.injEq] at h
      exact ⟨h ▸ hv, by simp⟩
  | cons r l ih =>
      rw [replay_cons, Option.bind_eq_some_iff] at h
      obtain ⟨t₁, hr, hl⟩ := h
      obtain ⟨ht₁, hrest⟩ := ih hl fun r' hr' => hother r' (List.mem_cons_of_mem _ hr')
      have hne : key r ≠ k := by
        intro hk
        subst hk
        cases hput : put r with
        | some w =>
            obtain ⟨-, rfl⟩ := (replayRecord_put hput).mp hr
            rw [Function.update_self] at ht₁
            exact hother r List.mem_cons_self (hput.trans ht₁)
        | none =>
            rw [replayRecord_delete hput, Option.some.injEq] at hr
            rw [← hr, Function.update_self] at ht₁
            simp at ht₁
      refine ⟨(replayRecord_of_ne hr hne).symm.trans ht₁, ?_⟩
      simpa [hne] using hrest

/-- What is in the table comes from a record. -/
theorem replay_mem (h : replay key put l t = some t') (hv : t' k = some v) (hnone : t k ≠ some v) :
    ∃ r ∈ l, key r = k ∧ put r = some v := by
  induction l generalizing t with
  | nil =>
      rw [replay_nil, Option.some.injEq] at h
      exact absurd (h ▸ hv) hnone
  | cons r l ih =>
      rw [replay_cons, Option.bind_eq_some_iff] at h
      obtain ⟨t₁, hr, hl⟩ := h
      by_cases ht₁ : t₁ k = some v
      · have hk : key r = k := by
          by_contra hne
          exact hnone ((replayRecord_of_ne hr hne).symm.trans ht₁)
        subst hk
        cases hput : put r with
        | some w =>
            obtain ⟨-, rfl⟩ := (replayRecord_put hput).mp hr
            rw [Function.update_self] at ht₁
            exact ⟨r, List.mem_cons_self, rfl, hput.trans ht₁⟩
        | none =>
            rw [replayRecord_delete hput, Option.some.injEq] at hr
            rw [← hr, Function.update_self] at ht₁
            simp at ht₁
      · obtain ⟨r', hr', hkey⟩ := ih hl ht₁
        exact ⟨r', List.mem_cons_of_mem _ hr', hkey⟩

/-- **The put of a value that is there can be taken out**, and takes its key along. -/
theorem replay_drop_put (h : replay key put (A ++ r :: B) t = some t') (hput : put r = some v)
    (hv : t' (key r) = some v) (hother : ∀ r' ∈ B, put r' ≠ some v) :
    replay key put (A ++ B) t = some (Function.update t' (key r) none) ∧ ∀ r' ∈ B, key r' ≠ key r := by
  rw [replay_append, Option.bind_eq_some_iff] at h
  obtain ⟨tA, hA, hrB⟩ := h
  rw [replay_cons, Option.bind_eq_some_iff] at hrB
  obtain ⟨tr, hr, hB⟩ := hrB
  obtain ⟨hfree, rfl⟩ := (replayRecord_put hput).mp hr
  obtain ⟨-, hne⟩ := replay_value hB hv hother
  refine ⟨?_, hne⟩
  have hback : Function.update (Function.update tA (key r) (some v)) (key r) none = tA := by
    rw [Function.update_idem, ← hfree, Function.update_eq_self]
  have hlast : replay key put B (Function.update (Function.update tA (key r) (some v)) (key r) none) =
      (replay key put B (Function.update tA (key r) (some v))).map fun t' => Function.update t' (key r) none :=
    replay_update hne none
  rw [hback, hB] at hlast
  rw [replay_append, hA]
  exact hlast

/-- **A put and its delete can be taken out together.** -/
theorem replay_drop_pair (h : replay key put (A ++ r :: B ++ d :: C) t = some t') (hput : put r = some v)
    (hdelete : put d = none) (hkey : key d = key r) (hne : ∀ r' ∈ B, key r' ≠ key r) :
    replay key put (A ++ B ++ C) t = some t' := by
  rw [replay_append, replay_append, Option.bind_assoc, Option.bind_eq_some_iff] at h
  obtain ⟨tA, hA, hrest⟩ := h
  rw [replay_cons, Option.bind_assoc, Option.bind_eq_some_iff] at hrest
  obtain ⟨tr, hr, hrest⟩ := hrest
  obtain ⟨hfree, rfl⟩ := (replayRecord_put hput).mp hr
  rw [replay_update hne, Option.bind_eq_some_iff] at hrest
  obtain ⟨tB, hB, hrest⟩ := hrest
  obtain ⟨tB', hB', rfl⟩ := Option.map_eq_some_iff.mp hB
  rw [replay_cons, replayRecord_delete hdelete, Option.bind_some, hkey, Function.update_idem] at hrest
  have hB'none : tB' (key r) = none := by
    have hback : replay key put B (Function.update tA (key r) none) =
        (replay key put B tA).map fun t' => Function.update t' (key r) none := replay_update hne none
    rw [← hfree, Function.update_eq_self, hB', Option.map_some, Option.some.injEq, hfree] at hback
    rw [hback, Function.update_self]
  rw [← hB'none, Function.update_eq_self] at hrest
  rw [List.append_assoc, replay_append, hA, Option.bind_some, replay_append, hB', Option.bind_some]
  exact hrest

end Replay

/-! ### The newest record -/

section Newest

variable {R V : Type} {stamp : R → Nat} {value : R → V} {l A B : List R} {r r' : R}

/-- A record is at least as new as those before it and newer than those after it. -/
def Newest (stamp : R → Nat) (l : List R) (r : R) : Prop :=
  ∃ A B, l = A ++ r :: B ∧ (∀ x ∈ A, stamp x ≤ stamp r) ∧ ∀ x ∈ B, stamp x < stamp r

/-- One record after another, each of them taken unless what is at hand is newer. -/
def takeNewest (stamp : R → Nat) (value : R → V) (at_ : Nat × V) (r : R) : Nat × V :=
  if stamp r ≥ at_.1 then (stamp r, value r) else at_

theorem takeNewest_older (l : List R) (s : Nat × V) (h : ∀ x ∈ l, stamp x < s.1) :
    l.foldl (takeNewest stamp value) s = s := by
  induction l with
  | nil => rfl
  | cons x l ih =>
      have hx : ¬ stamp x ≥ s.1 := Nat.not_le.mpr (h x List.mem_cons_self)
      rw [List.foldl_cons, takeNewest, if_neg hx]
      exact ih fun y hy => h y (List.mem_cons_of_mem _ hy)

theorem takeNewest_le {m : Nat} (l : List R) (s : Nat × V) (hs : s.1 ≤ m) (h : ∀ x ∈ l, stamp x ≤ m) :
    (l.foldl (takeNewest stamp value) s).1 ≤ m := by
  induction l generalizing s with
  | nil => exact hs
  | cons x l ih =>
      rw [List.foldl_cons]
      refine ih _ ?_ fun y hy => h y (List.mem_cons_of_mem _ hy)
      unfold takeNewest
      split
      · exact h x List.mem_cons_self
      · exact hs

/-- **The newest record is what is at hand in the end.** -/
theorem Newest.taken (h : Newest stamp l r) (s : Nat × V) (hs : s.1 ≤ stamp r) :
    l.foldl (takeNewest stamp value) s = (stamp r, value r) := by
  obtain ⟨A, B, rfl, hA, hB⟩ := h
  have hbefore : (A.foldl (takeNewest stamp value) s).1 ≤ stamp r := takeNewest_le A s hs hA
  rw [List.foldl_append, List.foldl_cons, takeNewest, if_pos hbefore]
  exact takeNewest_older B _ hB

theorem Newest.mem (h : Newest stamp l r) : r ∈ l := by
  obtain ⟨A, B, rfl, -, -⟩ := h
  simp

theorem Newest.le (h : Newest stamp l r) : ∀ x ∈ l, stamp x ≤ stamp r := by
  obtain ⟨A, B, rfl, hA, hB⟩ := h
  intro x hx
  simp only [List.mem_append, List.mem_cons] at hx
  rcases hx with hx | rfl | hx
  · exact hA x hx
  · exact Nat.le_refl _
  · exact Nat.le_of_lt (hB x hx)

/-- A record that is appended with a stamp none of the others reaches. -/
theorem Newest.append (h : ∀ x ∈ l, stamp x ≤ stamp r) : Newest stamp (l ++ [r]) r :=
  ⟨l, [], rfl, h, by simp⟩

/-- A record that is stamped again, past all others. -/
theorem Newest.restamp (hr : r ∈ l) (h : ∀ x ∈ l, x = r ∨ stamp x < stamp r) (hnodup : l.Nodup) : Newest stamp l r := by
  obtain ⟨A, B, rfl⟩ := List.append_of_mem hr
  have hmid := List.nodup_middle.mp hnodup
  have hout : r ∉ A ++ B := (List.nodup_cons.mp hmid).1
  refine ⟨A, B, rfl, fun x hx => ?_, fun x hx => ?_⟩
  · rcases h x (by simp [hx]) with rfl | hlt
    · exact Nat.le_refl _
    · exact Nat.le_of_lt hlt
  · rcases h x (by simp [hx]) with rfl | hlt
    · exact absurd (List.mem_append_right A hx) hout
    · exact hlt

theorem Newest.congr {stamp' : R → Nat} (h : Newest stamp l r) (hsame : ∀ x ∈ l, stamp' x = stamp x) :
    Newest stamp' l r := by
  have hr := hsame r h.mem
  obtain ⟨A, B, rfl, hA, hB⟩ := h
  refine ⟨A, B, rfl, fun x hx => ?_, fun x hx => ?_⟩
  · rw [hr, hsame x (by simp [hx])]
    exact hA x hx
  · rw [hr, hsame x (by simp [hx])]
    exact hB x hx

end Newest

end Parfs.Lib
