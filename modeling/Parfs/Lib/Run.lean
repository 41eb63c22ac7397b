/-
Runs of a labelled step relation.

A run is any number of steps with any labels.  Where a property survives only the
steps that meet some condition, the run is one of the guarded relation: the same
steps, each taken in a state that meets the condition for its label.
-/
import Mathlib.Logic.Relation

namespace Parfs.Lib

variable {S A : Type} {step : S → A → S → Prop} {guard : S → A → Prop}

/-- Any number of steps. -/
def Runs (step : S → A → S → Prop) : S → S → Prop :=
  Relation.ReflTransGen fun s t => ∃ a, step s a t

/-- The steps whose label meets the condition in the state they start from. -/
def Guarded (guard : S → A → Prop) (step : S → A → S → Prop) (s : S) (a : A) (t : S) : Prop :=
  guard s a ∧ step s a t

theorem Runs.refl (s : S) : Runs step s s := Relation.ReflTransGen.refl

theorem Runs.tail {s t u : S} {a : A} (h : Runs step s t) (hstep : step t a u) : Runs step s u :=
  Relation.ReflTransGen.tail h ⟨a, hstep⟩

theorem Runs.single {s t : S} {a : A} (hstep : step s a t) : Runs step s t :=
  (Runs.refl s).tail hstep

theorem Runs.trans {s t u : S} (h : Runs step s t) (h' : Runs step t u) : Runs step s u :=
  Relation.ReflTransGen.trans h h'

/-- A run whose steps are steps of another relation, whatever their labels there. -/
theorem Runs.map {B : Type} {step' : S → B → S → Prop} (hmap : ∀ s a t, step s a t → ∃ b, step' s b t)
    {s t : S} (hrun : Runs step s t) : Runs step' s t := by
  induction hrun with
  | refl => exact Runs.refl s
  | tail _ hstep ih =>
      obtain ⟨a, hstep⟩ := hstep
      obtain ⟨b, hstep'⟩ := hmap _ a _ hstep
      exact ih.tail hstep'

/-- What every step keeps, every run keeps. -/
theorem Runs.invariant {Inv : S → Prop} (hkeep : ∀ s a t, Inv s → step s a t → Inv t)
    {s t : S} (hrun : Runs step s t) (h0 : Inv s) : Inv t := by
  induction hrun with
  | refl => exact h0
  | tail _ hstep ih =>
      obtain ⟨a, hstep⟩ := hstep
      exact hkeep _ a _ ih hstep

end Parfs.Lib
