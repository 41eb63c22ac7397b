/-
The combining queues of a ring.

Puts that come at once are done by one of those who put: each appends its request to a queue, and
whoever finds the queue empty is the combiner.  It goes along the queue and does the requests for
the others, who wait until theirs is done.  After 128 of them it hands its role over to the one
whose request is next.  Gets have a queue of their own.

Requests are numbered, one for each call; what a call does goes by the loads and stores of what
it shares.  This is a ring that is not blocking, so that nobody takes a nap.
-/
import Mathlib.Logic.Function.Basic

namespace Parfs

/-- `RING_BUFFER_MAX_COMBINING` -/
def maxCombining : Nat := 128

/-- Where `ring_buffer_op` is.  A combiner is at request `r`; `max` is its `max_combining`, and
it does `i` requests more after this one before it looks for another combiner. -/
inductive CombinePc where
  /-- There is no call yet. -/
  | idle
  /-- in `ask_request`, before the swap -/
  | ask
  /-- before `__next` of the last request is stored -/
  | link (oldTail : Nat)
  /-- in `wait_until_done`, before the request is polled -/
  | poll
  /-- before the flag of a combiner is looked at -/
  | role
  /-- before `exec_op` -/
  | exec (r max i : Nat)
  /-- in `exec_op` -/
  | inside (r max i : Nat)
  /-- before `__next` is loaded -/
  | next (r max i : Nat)
  /-- before the compare and swap -/
  | cas (r max i : Nat)
  /-- while a request is partially inserted -/
  | spin (r max i : Nat)
  /-- before a waiter is let go that others are behind -/
  | letGo (r max i rNext : Nat)
  /-- before the last one is let go -/
  | letLastGo (r : Nat)
  /-- before the combiner looks whether the next one waits -/
  | look (r max : Nat)
  | handOver (r : Nat)
  | returned
  deriving DecidableEq, Repr

/-- A queue, its requests, and the calls. -/
structure Combining where
  /-- `put_req`, or `get_req` -/
  reqTail : Option Nat
  /-- `__next` -/
  next : Nat → Option Nat
  /-- `SOLROS_RING_BUFFER_REQ_NON_BLOCKING` -/
  nonBlocking : Nat → Bool
  /-- `SOLROS_RING_BUFFER_REQ_DONE` -/
  done : Nat → Bool
  /-- `SOLROS_RING_BUFFER_REQ_COMBINER` -/
  combiner : Nat → Bool
  pc : Nat → CombinePc
  /-- the requests, in the order they were asked -/
  asked : List Nat
  /-- the requests that `exec_op` is through with, in its order -/
  executed : List Nat

namespace Combining

variable (s : Combining)

/-- A queue that nobody uses yet. -/
def new : Combining := ⟨none, fun _ => none, fun _ => false, fun _ => false, fun _ => false, fun _ => .idle, [], []⟩

/-- Where a call is next. -/
def goto (k : Nat) (pc : CombinePc) : Combining := { s with pc := Function.update s.pc k pc }

/-- A call with a request that is initialized. -/
def call (k : Nat) (nonBlocking : Bool) : Option Combining :=
  match s.pc k with
  | .idle => some { s with nonBlocking := Function.update s.nonBlocking k nonBlocking, pc := Function.update s.pc k .ask }
  | _ => none

/-- A step of `ring_buffer_op`. -/
def step (k : Nat) : Option Combining :=
  match s.pc k with
  | .idle => none
  | .ask =>
    let pc := match s.reqTail with
      | some oldTail => .link oldTail
      | none => .exec k maxCombining (maxCombining - 1)
    some { s with reqTail := some k, asked := s.asked ++ [k], pc := Function.update s.pc k pc }
  | .link oldTail =>
    let pc := if s.nonBlocking k then .returned else .poll
    some { s with next := Function.update s.next oldTail (some k), pc := Function.update s.pc k pc }
  | .poll => some (s.goto k (if s.done k then .returned else .role))
  | .role => some (s.goto k (if s.combiner k then .exec k maxCombining (maxCombining - 1) else .poll))
  | .exec r max i => some (s.goto k (.inside r max i))
  | .inside r max i => some { s with executed := s.executed ++ [r], pc := Function.update s.pc k (.next r max i) }
  | .next r max i =>
    match s.next r with
    | some rNext => some (s.goto k (.letGo r max i rNext))
    | none => some (s.goto k (.cas r max i))
  | .cas r max i =>
    if s.reqTail = some r then some { s with reqTail := none, pc := Function.update s.pc k (.letLastGo r) }
    else some (s.goto k (.spin r max i))
  | .spin r max i =>
    match s.next r with
    | some rNext => some (s.goto k (.letGo r max i rNext))
    | none => some s
  | .letGo r max i rNext =>
    let pc := if i = 0 then .look rNext max else .exec rNext max (i - 1)
    some { s with done := Function.update s.done r true, pc := Function.update s.pc k pc }
  | .letLastGo r => some { s with done := Function.update s.done r true, pc := Function.update s.pc k .returned }
  | .look r max =>
    -- `combine_more`
    if s.nonBlocking r then some (s.goto k (.exec r (max / 2 + 1) (max / 2)))
    else some (s.goto k (.handOver r))
  | .handOver r => some { s with combiner := Function.update s.combiner r true, pc := Function.update s.pc k .returned }
  | .returned => none

end Combining

end Parfs
