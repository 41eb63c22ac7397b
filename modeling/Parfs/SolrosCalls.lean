/-
A ring that many put to and many get from.

Each call of `solros_ring_buffer_put` or `solros_ring_buffer_get` has a `__ring_buffer_put` or
`__ring_buffer_get` of its own to be in, and nothing but the combining queue keeps two of them
apart.  The ring itself, and the copies and statuses, are as they are for one of each.
-/
import Parfs.Combining
import Parfs.Solros

namespace Parfs

/-- A ring, its queues, and the calls.  The `put` and `get` of the ring are not used. -/
structure SolrosCalls where
  ring : Solros
  putReq : Combining
  getReq : Combining
  /-- where `__ring_buffer_put` is in a call -/
  putPc : Nat → PutPc
  getPc : Nat → GetPc
  /-- what is going to be copied for a request to put -/
  payload : Nat → List UInt8

namespace SolrosCalls

variable (s : SolrosCalls)

/-- A ring that nobody uses yet. -/
def new (rb : SolrosRing) : SolrosCalls := ⟨.new rb, .new, .new, fun _ => .idle, fun _ => .idle, fun _ => []⟩

/-- `solros_ring_buffer_put`, up to `ring_buffer_op` -/
def put (k : Nat) (payload : List UInt8) (nonBlocking : Bool) : Option SolrosCalls :=
  -- `-EINVAL`
  if s.ring.rb.size < s.ring.rb.putAlignSize payload.length then none
  else
    match s.putReq.call k nonBlocking with
    | some putReq => some { s with putReq := putReq, payload := Function.update s.payload k payload }
    | none => none

/-- A step of `ring_buffer_op` in a put. -/
def putOp (k : Nat) : Option SolrosCalls :=
  match s.putReq.step k with
  | none => none
  | some putReq =>
    match s.putReq.pc k with
    | .exec r _ _ =>
      match s.ring.request (s.payload r) with
      | some ring => some { s with putReq := putReq, putPc := Function.update s.putPc k ring.put }
      | none => none
    | .inside _ _ _ => if s.putPc k = .idle then some { s with putReq := putReq } else none
    | _ => some { s with putReq := putReq }

/-- A step of `__ring_buffer_put`. -/
def putStep (k : Nat) : Option SolrosCalls :=
  match Solros.putStep { s.ring with put := s.putPc k } with
  | some ring => some { s with ring := { ring with put := .idle }, putPc := Function.update s.putPc k ring.put }
  | none => none

/-- `solros_ring_buffer_get` -/
def get (k : Nat) (nonBlocking : Bool) : Option SolrosCalls :=
  match s.getReq.call k nonBlocking with
  | some getReq => some { s with getReq := getReq }
  | none => none

/-- A step of `ring_buffer_op` in a get. -/
def getOp (k : Nat) : Option SolrosCalls :=
  match s.getReq.step k with
  | none => none
  | some getReq =>
    match s.getReq.pc k with
    | .exec _ _ _ =>
      match s.ring.requestGet with
      | some ring => some { s with getReq := getReq, getPc := Function.update s.getPc k ring.get }
      | none => none
    | .inside _ _ _ => if s.getPc k = .idle then some { s with getReq := getReq } else none
    | _ => some { s with getReq := getReq }

/-- A step of `__ring_buffer_get`. -/
def getStep (k : Nat) : Option SolrosCalls :=
  match Solros.getStep { s.ring with get := s.getPc k } with
  | some ring => some { s with ring := { ring with get := .idle }, getPc := Function.update s.getPc k ring.get }
  | none => none

/-- A step of one who has an element. -/
def user (a : SolrosAct) : Option SolrosCalls :=
  match a with
  | .request _ | .putStep | .requestGet | .getStep => none
  | a =>
    match a.run s.ring with
    | some ring => some { s with ring := ring }
    | none => none

end SolrosCalls

/-- What one of the calls does next. -/
inductive SolrosCallsAct where
  | put (k : Nat) (payload : List UInt8) (nonBlocking : Bool)
  | putOp (k : Nat)
  | putStep (k : Nat)
  | get (k : Nat) (nonBlocking : Bool)
  | getOp (k : Nat)
  | getStep (k : Nat)
  | user (a : SolrosAct)
  deriving DecidableEq, Repr

def SolrosCallsAct.run (s : SolrosCalls) : SolrosCallsAct → Option SolrosCalls
  | put k payload nonBlocking => s.put k payload nonBlocking
  | putOp k => s.putOp k
  | putStep k => s.putStep k
  | get k nonBlocking => s.get k nonBlocking
  | getOp k => s.getOp k
  | getStep k => s.getStep k
  | user a => s.user a

/-- A put of a call, next to the get of another one, that overtakes. -/
def SolrosCalls.overtakes (s : SolrosCalls) (k k' : Nat) : Bool :=
  Solros.overtakes { s.ring with put := s.putPc k, get := s.getPc k' }

end Parfs
