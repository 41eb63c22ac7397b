/-
Putting things out one step late.

A loop that holds each thing back until it sees the next puts out a thing together with its
successor, and the last one with itself.  What it puts out is right where no thing can be
told from its successor in what is taken from the successor.
-/
import Mathlib.Data.List.Nodup

namespace Parfs.Lib

variable {A B C : Type} {put : A → A → B} {l : List A}

/-- Each thing with the next one, the last with itself. -/
def late (put : A → A → B) : List A → List B
  | [] => []
  | [a] => [put a a]
  | a :: b :: l => put a b :: late put (b :: l)

@[simp] theorem length_late : ∀ l : List A, (late put l).length = l.length
  | [] => rfl
  | [_] => rfl
  | _ :: b :: l => congrArg (· + 1) (length_late (b :: l))

/-- What is taken of a thing itself comes out in the order of the things. -/
theorem late_map {g : B → C} {key : A → C} (hkey : ∀ a b, g (put a b) = key a) :
    ∀ l : List A, (late put l).map g = l.map key
  | [] => rfl
  | [a] => by rw [late, List.map_singleton, List.map_singleton, hkey]
  | a :: b :: l => by rw [late, List.map_cons, List.map_cons, hkey, late_map hkey (b :: l)]

theorem late_nodup {g : B → C} {key : A → C} (hkey : ∀ a b, g (put a b) = key a)
    (hl : (l.map key).Nodup) : (late put l).Nodup := by
  refine List.Nodup.of_map g ?_
  rwa [late_map hkey]

theorem late_eq_map (h : l.IsChain fun a b => put a b = put a a) : late put l = l.map fun a => put a a := by
  induction l with
  | nil => rfl
  | cons a l ih =>
      cases l with
      | nil => rfl
      | cons b l =>
          obtain ⟨hab, hrest⟩ := List.isChain_cons_cons.mp h
          rw [late, hab, ih hrest]
          rfl

/-- What comes out late is what should, just where a thing and its successor say the same. -/
theorem late_subset_iff {g : B → C} {key : A → C} (hkey : ∀ a b, g (put a b) = key a) {all : List A}
    (hall : ∀ a ∈ all, ∀ b ∈ all, key a = key b → a = b) (hl : ∀ a ∈ l, a ∈ all) :
    (∀ x ∈ late put l, ∃ a ∈ all, x = put a a) ↔ l.IsChain fun a b => put a b = put a a := by
  induction l with
  | nil => simp [late]
  | cons a l ih =>
      cases l with
      | nil => simpa [late] using ⟨a, hl a (by simp), rfl⟩
      | cons b l =>
          rw [late, List.forall_mem_cons, ih fun c hc => hl c (by simp [hc]), List.isChain_cons_cons]
          refine and_congr_left fun _ => ⟨?_, fun h => ⟨a, hl a (by simp), h⟩⟩
          rintro ⟨c, hc, heq⟩
          have hac : key a = key c := by rw [← hkey a b, heq, hkey]
          rw [heq, hall a (hl a (by simp)) c hc hac]

end Parfs.Lib
