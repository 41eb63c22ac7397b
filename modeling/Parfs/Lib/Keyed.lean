/-
Maps kept under a key of the name.

A table that is looked up by a key of the name, and never compares the names, stands for a
map from names only as long as no two names that are present share a key.  A name that is
absent then still reads the value of a present name with its key: that, and nothing else, is
what the names can tell of the table.
-/
import Mathlib.Logic.Function.Basic

namespace Parfs.Lib

variable {N K V : Type} {key : N → K} {names : N → Option V} {table : K → Option V}

/-- The table holds what the names map to, under their keys. -/
structure Keyed (key : N → K) (names : N → Option V) (table : K → Option V) : Prop where
  stored : ∀ n v, names n = some v → table (key n) = some v
  named : ∀ k v, table k = some v → ∃ n, key n = k ∧ names n = some v
  distinct : ∀ m n, names m ≠ none → names n ≠ none → key m = key n → m = n

namespace Keyed

theorem empty : Keyed key (fun _ => (none : Option V)) fun _ => none where
  stored := nofun
  named := nofun
  distinct := fun _ _ h => absurd rfl h

/-- The table answers for a name when no other name that is present has its key. -/
theorem lookup_iff (h : Keyed key names table) (n : N) :
    table (key n) = names n ↔ ∀ m, names m ≠ none → key m = key n → m = n := by
  constructor
  · intro heq m hm hkey
    obtain ⟨v, hv⟩ := Option.ne_none_iff_exists'.mp hm
    have hn : names n = some v := by rw [← heq, ← hkey, h.stored m v hv]
    exact h.distinct m n hm (by simp [hn]) hkey
  · intro halone
    cases hn : names n with
    | some v => exact h.stored n v hn
    | none =>
        cases ht : table (key n) with
        | none => rfl
        | some v =>
            obtain ⟨m, hkey, hm⟩ := h.named _ v ht
            have hmn := halone m (by simp [hm]) hkey
            rw [hmn, hn] at hm
            cases hm

theorem lookup_present (h : Keyed key names table) {n : N} (hn : names n ≠ none) :
    table (key n) = names n :=
  (h.lookup_iff n).mpr fun m hm hkey => h.distinct m n hm hn hkey

variable [DecidableEq N] [DecidableEq K]

/-- A name is added under a key the table does not hold. -/
theorem insert (h : Keyed key names table) {n : N} (hfree : table (key n) = none) (v : V) :
    Keyed key (Function.update names n (some v)) (Function.update table (key n) (some v)) := by
  have hother : ∀ m, names m ≠ none → key m ≠ key n := by
    intro m hm hkey
    rw [← h.lookup_present hm, hkey] at hm
    exact hm hfree
  refine ⟨?_, ?_, ?_⟩
  · intro m w hm
    by_cases hmn : m = n
    · subst hmn
      simpa using hm
    · rw [Function.update_of_ne hmn] at hm
      rw [Function.update_of_ne (hother m (by simp [hm]))]
      exact h.stored m w hm
  · intro k w hk
    by_cases hkey : k = key n
    · subst hkey
      exact ⟨n, rfl, by simpa using hk⟩
    · rw [Function.update_of_ne hkey] at hk
      obtain ⟨m, rfl, hm⟩ := h.named k w hk
      exact ⟨m, rfl, by rw [Function.update_of_ne fun hmn => hkey (by rw [hmn]), hm]⟩
  · intro a b ha hb hkey
    by_cases han : a = n <;> by_cases hbn : b = n
    · rw [han, hbn]
    · rw [Function.update_of_ne hbn] at hb
      exact absurd (by rw [← hkey, han]) (hother b hb)
    · rw [Function.update_of_ne han] at ha
      exact absurd (by rw [hkey, hbn]) (hother a ha)
    · rw [Function.update_of_ne han] at ha
      rw [Function.update_of_ne hbn] at hb
      exact h.distinct a b ha hb hkey

/-- A name that is present is removed, and its key with it. -/
theorem erase (h : Keyed key names table) {n : N} (hn : names n ≠ none) :
    Keyed key (Function.update names n none) (Function.update table (key n) none) := by
  refine ⟨?_, ?_, ?_⟩
  · intro m w hm
    by_cases hmn : m = n
    · subst hmn
      simp at hm
    · rw [Function.update_of_ne hmn] at hm
      rw [Function.update_of_ne fun hkey => hmn (h.distinct m n (by simp [hm]) hn hkey)]
      exact h.stored m w hm
  · intro k w hk
    by_cases hkey : k = key n
    · subst hkey
      simp at hk
    · rw [Function.update_of_ne hkey] at hk
      obtain ⟨m, rfl, hm⟩ := h.named k w hk
      exact ⟨m, rfl, by rw [Function.update_of_ne fun hmn => hkey (by rw [hmn]), hm]⟩
  · intro a b ha hb hkey
    have hpresent : ∀ m, Function.update names n none m ≠ none → names m ≠ none := by
      intro m hm
      by_cases hmn : m = n
      · subst hmn
        simp at hm
      · rwa [Function.update_of_ne hmn] at hm
    exact h.distinct a b (hpresent a ha) (hpresent b hb) hkey

end Keyed

end Parfs.Lib
