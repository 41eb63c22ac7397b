/-
Undo logs.

A record is an address and the value it is to get back.  Undoing applies the records in
order.  When all records of an address carry one value the order does not matter, and
neither does how often an address was recorded.
-/
import Mathlib.Logic.Function.Basic

namespace Parfs.Lib

variable {α β : Type} [DecidableEq α]

/-- Write every record back, first record first. -/
def undo (records : List (α × β)) (m : α → β) : α → β :=
  records.foldl (fun m r => Function.update m r.1 r.2) m

@[simp] theorem undo_nil (m : α → β) : undo [] m = m := rfl

@[simp] theorem undo_cons (r : α × β) (rs : List (α × β)) (m : α → β) :
    undo (r :: rs) m = undo rs (Function.update m r.1 r.2) := rfl

/-- What was not recorded is not touched. -/
theorem undo_of_notMem {rs : List (α × β)} {a : α} :
    ∀ {m : α → β}, a ∉ rs.map Prod.fst → undo rs m a = m a := by
  induction rs with
  | nil => intro m _; rfl
  | cons r rs ih =>
      intro m ha
      rw [List.map_cons, List.mem_cons, not_or] at ha
      rw [undo_cons, ih ha.2, Function.update_of_ne ha.1]

/-- **What was recorded gets back the value all its records agree on.** -/
theorem undo_of_mem {rs : List (α × β)} {old : α → β} {a : α} (hold : ∀ r ∈ rs, r.2 = old r.1) :
    ∀ {m : α → β}, a ∈ rs.map Prod.fst → undo rs m a = old a := by
  induction rs with
  | nil => intro m ha; cases ha
  | cons r rs ih =>
      intro m ha
      rw [undo_cons]
      by_cases hlater : a ∈ rs.map Prod.fst
      · exact ih (fun r' hr' => hold r' (List.mem_cons_of_mem _ hr')) hlater
      · rw [List.map_cons, List.mem_cons] at ha
        have har : a = r.1 := ha.resolve_right hlater
        rw [undo_of_notMem hlater, har, Function.update_self]
        exact hold r List.mem_cons_self

end Parfs.Lib
