/-
Jobs that pass through a pool.

A job is put into one of several queues.  Each queue has a worker, who takes the first job of it
when the hands are free, and is done with it some time later.  Whatever the order, a job that was
put is in exactly one place: it waits, it is worked on, or it is done.
-/
import Mathlib.Algebra.Order.Group.Multiset

namespace Parfs.Lib

/-- Jobs by where they are, those that are not done together with their queue; `R` is what comes
of a job. -/
structure Pool (Q J R : Type) where
  waiting : List (Q × J)
  working : List (Q × J)
  done : List (J × R)

namespace Pool

variable {Q J R : Type} [DecidableEq Q] {p p' : Pool Q J R} {q : Q} {j : J} {r : R}

def empty : Pool Q J R := ⟨[], [], []⟩

def put (p : Pool Q J R) (q : Q) (j : J) : Pool Q J R := { p with waiting := p.waiting ++ [(q, j)] }

/-- The worker of a queue takes the first job of it. -/
def take (p : Pool Q J R) (q : Q) : Option (Pool Q J R) :=
  if p.working.any fun x => x.1 = q then none
  else
    (p.waiting.find? fun x => x.1 = q).map fun x =>
      { p with waiting := p.waiting.eraseP fun x => x.1 = q, working := p.working ++ [x] }

/-- The worker of a queue is done with the job. -/
def finish (p : Pool Q J R) (q : Q) (result : J → R) : Option (J × Pool Q J R) :=
  (p.working.find? fun x => x.1 = q).map fun x =>
    (x.2, { p with working := p.working.eraseP fun x => x.1 = q, done := p.done ++ [(x.2, result x.2)] })

/-- The jobs that are not done. -/
def left (p : Pool Q J R) : Multiset J := (p.waiting.map Prod.snd : Multiset J) + (p.working.map Prod.snd : Multiset J)

/-- All that were put. -/
def jobs (p : Pool Q J R) : Multiset J := p.left + (p.done.map Prod.fst : Multiset J)

@[simp] theorem left_empty : (empty : Pool Q J R).left = 0 := rfl

@[simp] theorem jobs_empty : (empty : Pool Q J R).jobs = 0 := rfl

@[simp] theorem done_put : (p.put q j).done = p.done := rfl

theorem left_put : (p.put q j).left = p.left + {j} := by
  unfold left put
  dsimp only
  rw [List.map_append, ← Multiset.coe_add, add_right_comm]
  rfl

theorem jobs_put : (p.put q j).jobs = p.jobs + {j} := by
  unfold jobs
  rw [left_put, done_put, add_right_comm]

/-- What is found and what is left of a list. -/
theorem find_erase {l : List (Q × J)} {x : Q × J} (h : (l.find? fun x => x.1 = q) = some x) :
    x.1 = q ∧ (l.map Prod.snd : Multiset J) =
      ((l.eraseP fun x => x.1 = q).map Prod.snd : Multiset J) + {x.2} := by
  obtain ⟨hx, before, after, rfl, hbefore⟩ := List.find?_eq_some_iff_append.mp h
  refine ⟨by simpa using hx, ?_⟩
  have hcons : ((x :: after).eraseP fun x => x.1 = q) = after := List.eraseP_cons_of_pos hx
  rw [List.eraseP_append_right _ fun y hy => by simpa using hbefore y hy, hcons]
  simp only [List.map_append, List.map_cons, ← Multiset.coe_add, ← Multiset.cons_coe, ← Multiset.singleton_add]
  rw [add_left_comm, add_comm]

/-- Taking a job moves it, -/
theorem take_spec (h : p.take q = some p') : p'.left = p.left ∧ p'.done = p.done := by
  unfold take at h
  split at h
  · cases h
  · obtain ⟨x, hx, rfl⟩ := Option.map_eq_some_iff.mp h
    refine ⟨?_, rfl⟩
    unfold left
    dsimp only
    rw [(find_erase hx).2, List.map_append, ← Multiset.coe_add, add_right_comm, add_assoc]
    rfl

/-- and finishing it does, with what came of it. -/
theorem finish_spec {result : J → R} (h : p.finish q result = some (j, p')) :
    p.left = p'.left + {j} ∧ p'.done = p.done ++ [(j, result j)] := by
  unfold finish at h
  obtain ⟨x, hx, heq⟩ := Option.map_eq_some_iff.mp h
  cases heq
  refine ⟨?_, rfl⟩
  unfold left
  dsimp only
  rw [(find_erase hx).2, add_assoc]

theorem jobs_take (h : p.take q = some p') : p'.jobs = p.jobs := by
  unfold jobs
  rw [(take_spec h).1, (take_spec h).2]

theorem jobs_finish {result : J → R} (h : p.finish q result = some (j, p')) : p'.jobs = p.jobs := by
  obtain ⟨hleft, hdone⟩ := finish_spec h
  unfold jobs
  rw [hleft, hdone, List.map_append, ← Multiset.coe_add, ← add_assoc, add_right_comm]
  rfl

end Pool

end Parfs.Lib
