/-
The last run of a list.

A list of things with keys falls into runs of equal keys.  A loop that remembers the key it
saw last, and the thing at which that key first came up, ends with the start of the last
run, unless the key it started with was the key of everything it saw.
-/
import Mathlib.Data.List.DropRight

namespace Parfs.Lib

variable {α K : Type} [DecidableEq K] {key : α → K} {l : List α} {k : K} {a : α}

/-- The things at the end of the list that have the key of the last one. -/
def lastRun (key : α → K) (l : List α) : List α :=
  l.rtakeWhile fun x => decide (l.getLast?.map key = some (key x))

/-- The key seen last and where it came up. -/
def trackRun (key : α → K) (s : K × α) (x : α) : K × α := if key x ≠ s.1 then (key x, x) else s

theorem lastRun_suffix (key : α → K) (l : List α) : ∃ before, l = before ++ lastRun key l :=
  ⟨_, List.rdropWhile_append_rtakeWhile.symm⟩

theorem key_of_mem_lastRun {x : α} (h : x ∈ lastRun key l) : l.getLast?.map key = some (key x) := by
  have hx := List.mem_rtakeWhile_imp h
  simpa using hx

theorem lastRun_concat {x : α} (h : l.getLast?.map key = some (key x)) :
    lastRun key (l ++ [x]) = lastRun key l ++ [x] := by
  unfold lastRun
  rw [List.getLast?_concat, List.rtakeWhile_concat_pos _ _ _ (by simp), h]
  rfl

theorem lastRun_concat_new {x : α} (h : l.getLast?.map key ≠ some (key x)) :
    lastRun key (l ++ [x]) = [x] := by
  unfold lastRun
  rw [List.getLast?_concat, List.rtakeWhile_concat_pos _ _ _ (by simp)]
  have hnil : l.rtakeWhile (fun y => decide (Option.map key (some x) = some (key y))) = [] := by
    rw [List.rtakeWhile_eq_nil_iff]
    intro hl hlast
    rw [List.getLast?_eq_some_getLast hl] at h
    refine h ?_
    simpa [eq_comm] using hlast
  rw [hnil, List.nil_append]

theorem lastRun_ne_nil (h : l ≠ []) : lastRun key l ≠ [] := by
  obtain ⟨l, x, rfl⟩ := List.eq_nil_or_concat l |>.resolve_left h
  rw [List.concat_eq_append]
  by_cases hx : l.getLast?.map key = some (key x)
  · simp [lastRun_concat hx]
  · simp [lastRun_concat_new hx]

theorem lastRun_congr {key' : α → K} (h : ∀ x ∈ l, key' x = key x) : lastRun key' l = lastRun key l := by
  induction l using List.reverseRecOn with
  | nil => simp [lastRun]
  | append_singleton l x ih =>
      have hl : ∀ y ∈ l, key' y = key y := fun y hy => h y (List.mem_append_left _ hy)
      have hlast : l.getLast?.map key' = l.getLast?.map key :=
        Option.map_congr fun y hy => hl y (List.mem_of_getLast? hy)
      have hx : key' x = key x := h x (by simp)
      by_cases hsame : l.getLast?.map key = some (key x)
      · rw [lastRun_concat hsame, lastRun_concat (by rw [hlast, hx, hsame]), ih hl]
      · rw [lastRun_concat_new hsame, lastRun_concat_new (by rw [hlast, hx]; exact hsame)]

theorem foldl_trackRun_key (key : α → K) (k : K) (a : α) (l : List α) :
    (l.foldl (trackRun key) (k, a)).1 = (l.getLast?.map key).getD k := by
  induction l using List.reverseRecOn with
  | nil => rfl
  | append_singleton l x ih =>
      rw [List.foldl_append, List.getLast?_concat]
      simp only [List.foldl_cons, List.foldl_nil, trackRun, Option.map_some, Option.getD_some]
      split
      · rfl
      · rename_i hsame
        exact (not_not.mp hsame).symm

/-- A list of one key leaves the loop where it was. -/
theorem foldl_trackRun_same (h : ∀ x ∈ l, key x = k) : l.foldl (trackRun key) (k, a) = (k, a) := by
  induction l with
  | nil => rfl
  | cons x l ih =>
      have hx : trackRun key (k, a) x = (k, a) := by simp [trackRun, h x List.mem_cons_self]
      rw [List.foldl_cons, hx]
      exact ih fun y hy => h y (List.mem_cons_of_mem _ hy)

/-- **The loop ends with the start of the last run.** -/
theorem foldl_trackRun_start (h : ∃ x ∈ l, key x ≠ k) :
    (lastRun key l).head? = some (l.foldl (trackRun key) (k, a)).2 := by
  induction l using List.reverseRecOn with
  | nil => simp at h
  | append_singleton l x ih =>
      have hkey := foldl_trackRun_key key k a l
      rw [List.foldl_append]
      simp only [List.foldl_cons, List.foldl_nil, trackRun]
      by_cases hx : key x = (l.foldl (trackRun key) (k, a)).1
      · have hbefore : ∃ y ∈ l, key y ≠ k := by
          by_contra hall
          simp only [not_exists, not_and, not_not] at hall
          obtain ⟨y, hy, hyk⟩ := h
          rw [foldl_trackRun_same hall] at hx
          rcases List.mem_append.mp hy with hy | hy
          · exact hyk (hall y hy)
          · rw [List.mem_singleton.mp hy] at hyk
            exact hyk hx
        have hne : l ≠ [] := by
          rintro rfl
          simp at hbefore
        have hlast : l.getLast?.map key = some (key x) := by
          rw [List.getLast?_eq_some_getLast hne] at hkey ⊢
          rw [hx, hkey]
          rfl
        rw [if_neg (not_not.mpr hx), lastRun_concat hlast, List.head?_append, ih hbefore]
        rfl
      · have hlast : l.getLast?.map key ≠ some (key x) := by
          intro hsome
          rw [hsome] at hkey
          exact hx hkey.symm
        rw [if_pos hx, lastRun_concat_new hlast]
        rfl

end Parfs.Lib
