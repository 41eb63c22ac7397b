/-
The ring of an agent.

A ring is a piece of memory that elements go round in.  An element has a header of eight bytes
and its data behind it; one that would go over the end of the memory is not put there, but a
tombstone is, and the element starts over at the front.  `head` is where elements are put,
`tail` where they are taken, and `tail2` the first one that may still be in use.  Whoever puts
also moves `tail2` past elements that are done.

`put` and `get` are taken apart into the loads and stores of what they share.  Of each there is
one at a time; the combining queues see to that.  What runs next to them, and next to each other,
are the copies into and out of elements, byte by byte, and the changes of their status.

This is a ring that is not blocking, has no `reap_cb` and no shadow, in a kernel that does not map
its memory twice.  A load or store of a header is one access; accesses take effect in order.
-/
import Mathlib.Data.Finset.Range
import Parfs.Lib.Machine
import Parfs.Lib.Memory

namespace Parfs

open Lib

/-! ### Elements -/

/-- `RING_BUFFER_ELM_STATUS_INIT` -/
def elmStatusInit : Nat := 0x0be0

/-- `RING_BUFFER_ELM_STATUS_TOMBSTONE` -/
def elmStatusTombstone : Nat := 0x1000

/-- `RING_BUFFER_ELM_STATUS_TOMBSTONE_OWNER` -/
def elmStatusTombstoneOwner : Nat := 0x2000

/-- `RING_BUFFER_ELM_STATUS_READY` -/
def elmStatusReady : Nat := 0x0001

/-- `RING_BUFFER_ELM_STATUS_DONE` -/
def elmStatusDone : Nat := 0x0002

/-- `struct solros_ring_buffer_elm_t` -/
structure SolrosElm where
  size : Nat
  padding : Nat
  status : Nat
  deriving DecidableEq, Repr

/-- A flag of a status. -/
def SolrosElm.has (e : SolrosElm) (flag : Nat) : Bool := e.status &&& flag ≠ 0

/-- `struct solros_ring_buffer_t` -/
structure SolrosRing where
  size : Nat
  alignMask : Nat
  buff : ByteMem
  head : Nat
  tail : Nat
  tail2 : Nat

namespace SolrosRing

variable (rb : SolrosRing)

/-- The header at an offset. -/
def elm (p : Nat) : SolrosElm := ⟨rb.buff.word p 4, rb.buff.word (p + 4) 2, rb.buff.word (p + 6) 2⟩

def storeElm (p : Nat) (e : SolrosElm) : SolrosRing :=
  { rb with buff := ((rb.buff.setWord p 4 e.size).setWord (p + 4) 2 e.padding).setWord (p + 6) 2 e.status }

def storeStatus (p status : Nat) : SolrosRing := { rb with buff := rb.buff.setWord (p + 6) 2 status }

/-- `free_space_size` -/
def freeSpaceSize : Nat :=
  let headNext := (rb.head + 1) % rb.size
  if rb.tail2 = headNext then 0
  else
    let freeSpace :=
      if rb.tail2 < rb.head then subU64 rb.size (rb.head - rb.tail2)
      else if rb.tail2 > rb.head then rb.tail2 - rb.head
      else rb.size
    subU64 freeSpace (8 + 1)

/-- `__size` of `__ring_buffer_put_align_size` -/
def putAlignSize (size : Nat) : Nat := (size + 8 + rb.alignMask) / (rb.alignMask + 1) * (rb.alignMask + 1)

end SolrosRing

/-- `start_offset_coloring`; a page has `4096 / align` colors. -/
def startOffsetColoring (align rand : Nat) : Nat :=
  let numColor := 4096 / align
  let color := if numColor > 1 then 1 + rand % (numColor - 1) else 1
  color * align - 8

/-- `__solros_ring_buffer_create`; the memory `__rb_alloc_memory` gets, if it does, holds anything. -/
def solrosRingBufferCreate (sizeHint align rand : Nat) (memory : Option ByteMem) : Except Errno SolrosRing :=
  if align &&& (align - 1) ≠ 0 then .error .einval
  else
    let minSize := align + 8
    let hugePage := 2 * 1024 * 1024
    let rbSize := if sizeHint > hugePage * 3 then (sizeHint + minSize + (hugePage - 1)) / hugePage * hugePage
      else (sizeHint + minSize + 4095) / 4096 * 4096
    match memory with
    | none => .error .enomem
    | some buff =>
      let startOffset := startOffsetColoring align rand
      .ok ⟨rbSize, align - 1, buff, startOffset, startOffset, startOffset⟩

/-! ### Putting -/

/-- A request to put, with what is going to be copied into its element. -/
structure PutReq where
  payload : List UInt8
  /-- `__size` -/
  asize : Nat
  elmInitStatus : Nat
  deriving DecidableEq, Repr

/-- The variables of `reap_ring_buffer_elms`. -/
structure Reap where
  reapSize : Nat
  n : Nat
  rbTail : Nat
  rbTail2 : Nat
  deriving DecidableEq, Repr

/-- The variables of `reap_ring_buffer_elms_aggressively`. -/
structure AggressiveReap extends Reap where
  rbHead : Nat
  changedTail : Bool
  deriving DecidableEq, Repr

/-- Past an element that is done. -/
def Reap.advance (rb : SolrosRing) (l : Reap) (elm : SolrosElm) : Reap :=
  { l with rbTail2 := (l.rbTail2 + elm.size) % rb.size, n := l.n + elm.size }

/-- A turn of the loop of `reap_ring_buffer_elms`, with the load of the element that it looks at,
and whether there is another one. -/
def Reap.turn (rb : SolrosRing) (l : Reap) : Reap × Bool :=
  let elm := rb.elm l.rbTail2
  if l.rbTail2 ≠ l.rbTail ∧ elm.has elmStatusDone then
    let l := l.advance rb elm
    (l, decide (l.n < l.reapSize))
  else (l, false)

/-- A turn of the loop of `reap_ring_buffer_elms_aggressively`. -/
def AggressiveReap.turn (rb : SolrosRing) (l : AggressiveReap) : AggressiveReap × Bool :=
  let elm := rb.elm l.rbTail2
  if l.rbTail2 = l.rbHead then (l, false)
  else
    let l := { l with changedTail := l.changedTail || decide (l.rbTail = l.rbTail2) }
    if elm.has elmStatusDone then
      let l := { l with toReap := l.toReap.advance rb elm }
      (l, decide (l.n < l.reapSize))
    else (l, false)

/-- Where `__ring_buffer_put` is. -/
inductive PutPc where
  | idle
  /-- before `solros_ring_buffer_secure_free_space` -/
  | start (req : PutReq)
  /-- in the loop of `reap_ring_buffer_elms`, before the load of an element -/
  | reap (req : PutReq) (l : Reap)
  /-- before `rb->tail` is loaded by `reap_ring_buffer_elms_aggressively` -/
  | aggressive (req : PutReq) (reapSize : Nat)
  | reapAggressively (req : PutReq) (l : AggressiveReap)
  /-- before `rb->tail` is compared -/
  | checkTail (req : PutReq) (rbTail rbTail2 : Nat)
  /-- before the compare and swap -/
  | cas (req : PutReq) (rbTail rbTail2 : Nat)
  /-- the space is secured, if there is any -/
  | locate (req : PutReq)
  /-- the element is stored, and `head` is not -/
  | publish (req : PutReq) (elmAddr rbHead : Nat) (tombstone : Bool)
  deriving DecidableEq, Repr

/-! ### Getting -/

/-- Where `__ring_buffer_get` is; `h` is `rb->head` as it was loaded, `p` is `elm_addr`. -/
inductive GetPc where
  | idle
  /-- before the first comparison of `solros_ring_buffer_is_empty` -/
  | empty
  | emptyTail (h : Nat)
  /-- before the second one -/
  | emptyAgain
  | emptyAgainTail (h : Nat)
  /-- before `rb->tail` is loaded for `elm_addr` -/
  | locate
  | load (p : Nat)
  /-- before `rb->tail` is loaded for `rb_tail` -/
  | next (p : Nat) (elm : SolrosElm)
  /-- before the status of a tombstone is stored -/
  | reclaim (p rbTail : Nat)
  /-- before `rb->tail` moves past a tombstone -/
  | pass (p rbTail : Nat)
  /-- before the status of an owner of a tombstone is loaded -/
  | owner (p : Nat) (elm : SolrosElm) (rbTail : Nat)
  | disown (p : Nat) (elm : SolrosElm) (rbTail status : Nat)
  /-- before `rb->tail` moves past an element -/
  | publish (p : Nat) (elm : SolrosElm) (rbTail : Nat)
  deriving DecidableEq, Repr

/-! ### Those who put and get -/

/-- Where `solros_ring_enqueue` is after its put. -/
inductive EnqueuePhase where
  | copying
  /-- `solros_ring_buffer_elm_set_ready` has loaded the status. -/
  | settingReady (status : Nat)
  | ready
  deriving DecidableEq, Repr

/-- A `solros_ring_enqueue` whose put was successful. -/
structure Enqueue where
  /-- `req->data` -/
  data : Nat
  payload : List UInt8
  /-- the bytes that are copied -/
  copied : Finset Nat
  phase : EnqueuePhase
  deriving DecidableEq

/-- Where `solros_ring_dequeue` is after its get. -/
inductive DequeuePhase where
  | copying
  /-- `solros_ring_buffer_elm_set_done` is going to store the status of the tombstone. -/
  | settingTombstone
  | settingDone
  | done
  deriving DecidableEq, Repr

/-- A `solros_ring_dequeue` whose get was successful. -/
structure Dequeue where
  data : Nat
  /-- `req->size` -/
  size : Nat
  /-- what is copied out -/
  dest : Nat → Option UInt8
  phase : DequeuePhase

/-- A ring, and all who use it. -/
structure Solros where
  rb : SolrosRing
  put : PutPc
  get : GetPc
  /-- the puts that were successful, in their order -/
  sent : List Enqueue
  /-- the gets that were successful, in their order -/
  received : List Dequeue

namespace Solros

variable (s : Solros)

/-- `solros_ring_buffer_put` of a request. -/
def request (payload : List UInt8) : Option Solros :=
  match s.put with
  | .idle =>
    let asize := s.rb.putAlignSize payload.length
    -- `-EINVAL`
    if s.rb.size < asize then none else some { s with put := .start ⟨payload, asize, elmStatusInit⟩ }
  | _ => none

/-- After the loop of `reap_ring_buffer_elms`: `tail2`, and whether there is enough space now. -/
def reaped (req : PutReq) (l : Reap) : Solros :=
  let rb := { s.rb with tail2 := l.rbTail2 }
  { s with rb := rb, put := if rb.freeSpaceSize < rb.size then .aggressive req l.reapSize else .locate req }

/-- After the loop of `reap_ring_buffer_elms_aggressively`. -/
def reapedAggressively (req : PutReq) (l : AggressiveReap) : Solros :=
  { s with
    rb := { s.rb with tail2 := l.rbTail2 }
    put := if l.changedTail then .checkTail req l.rbTail l.rbTail2 else .locate req }

/-- The element is stored, or a tombstone is. -/
def putElm (req : PutReq) : Solros :=
  let rbHead := (s.rb.head + req.asize) % s.rb.size
  let tombstone := decide (rbHead < s.rb.head)
  let status := if tombstone then elmStatusTombstone ||| elmStatusReady else req.elmInitStatus
  { s with
    rb := s.rb.storeElm s.rb.head ⟨req.asize, req.asize - req.payload.length, status⟩
    put := .publish (if tombstone then { req with elmInitStatus := req.elmInitStatus ||| elmStatusTombstoneOwner } else req)
      s.rb.head rbHead tombstone }

/-- A step of `__ring_buffer_put`. -/
def putStep : Option Solros :=
  match s.put with
  | .idle => none
  | .start req =>
    let freeSize := s.rb.freeSpaceSize
    if freeSize < s.rb.size then
      some { s with put := .reap req ⟨2 * (s.rb.size - freeSize), 0, s.rb.tail, s.rb.tail2⟩ }
    else some { s with put := .locate req }
  | .reap req l =>
    match l.turn s.rb with
    | (l, true) => some { s with put := .reap req l }
    | (l, false) => some (s.reaped req l)
  | .aggressive req reapSize =>
    some { s with put := .reapAggressively req ⟨⟨reapSize, 0, s.rb.tail, s.rb.tail2⟩, s.rb.head, false⟩ }
  | .reapAggressively req l =>
    match l.turn s.rb with
    | (l, true) => some { s with put := .reapAggressively req l }
    | (l, false) => some (s.reapedAggressively req l)
  | .checkTail req rbTail rbTail2 =>
    some { s with put := if s.rb.tail = rbTail then .cas req rbTail rbTail2 else .locate req }
  | .cas req rbTail rbTail2 =>
    some { s with
      rb := if s.rb.tail = rbTail then { s.rb with tail := rbTail2 } else s.rb
      put := .locate req }
  | .locate req =>
    -- `-EAGAIN`
    if s.rb.freeSpaceSize < req.asize then some { s with put := .idle } else some (s.putElm req)
  | .publish req elmAddr rbHead tombstone =>
    let rb := { s.rb with head := rbHead }
    if tombstone then some { s with rb := rb, put := .start req }
    else some { s with rb := rb, put := .idle, sent := s.sent ++ [⟨elmAddr + 8, req.payload, ∅, .copying⟩] }

/-- `solros_ring_buffer_get` of a request. -/
def requestGet : Option Solros :=
  match s.get with
  | .idle => some { s with get := .empty }
  | _ => none

/-- A step of `__ring_buffer_get`. -/
def getStep : Option Solros :=
  match s.get with
  | .idle => none
  | .empty => some { s with get := .emptyTail s.rb.head }
  | .emptyTail h => some { s with get := if h = s.rb.tail then .emptyAgain else .locate }
  | .emptyAgain => some { s with get := .emptyAgainTail s.rb.head }
  -- `-EAGAIN`
  | .emptyAgainTail h => some { s with get := if h = s.rb.tail then .idle else .locate }
  | .locate => some { s with get := .load s.rb.tail }
  | .load p =>
    let elm := s.rb.elm p
    -- `-EAGAIN`
    some { s with get := if elm.has elmStatusReady then .next p elm else .idle }
  | .next p elm =>
    let rbTail := (s.rb.tail + elm.size) % s.rb.size
    some { s with
      get := if elm.has elmStatusTombstone then .reclaim p rbTail
        else if elm.has elmStatusTombstoneOwner then .owner p elm rbTail
        else .publish p elm rbTail }
  | .reclaim p rbTail =>
    some { s with
      rb := s.rb.storeStatus p (elmStatusTombstone ||| elmStatusReady ||| elmStatusDone)
      get := .pass p rbTail }
  | .pass _ rbTail => some { s with rb := { s.rb with tail := rbTail }, get := .empty }
  | .owner p elm rbTail => some { s with get := .disown p elm rbTail (s.rb.elm p).status }
  | .disown p elm rbTail status =>
    -- `&= ~RING_BUFFER_ELM_STATUS_TOMBSTONE_OWNER`
    some { s with
      rb := s.rb.storeStatus p (status - (status &&& elmStatusTombstoneOwner))
      get := .publish p elm rbTail }
  | .publish p elm rbTail =>
    some { s with
      rb := { s.rb with tail := rbTail }
      get := .idle
      received := s.received ++ [⟨p + 8, elm.size - elm.padding, fun _ => none, .copying⟩] }

/-- The copy of a byte into an element. -/
def copyTo (k i : Nat) : Option Solros :=
  match s.sent[k]? with
  | some e =>
    match e.phase, e.payload[i]? with
    | .copying, some b =>
      some { s with
        rb := { s.rb with buff := s.rb.buff.write (e.data + i) [b] }
        sent := s.sent.set k { e with copied := insert i e.copied } }
    | _, _ => none
  | none => none

/-- `solros_ring_buffer_elm_set_ready`, up to the load of the status. -/
def loadReady (k : Nat) : Option Solros :=
  match s.sent[k]? with
  | some e =>
    if e.phase = .copying ∧ e.copied = Finset.range e.payload.length then
      some { s with sent := s.sent.set k { e with phase := .settingReady (s.rb.elm (e.data - 8)).status } }
    else none
  | none => none

/-- And the store. -/
def storeReady (k : Nat) : Option Solros :=
  match s.sent[k]? with
  | some e =>
    match e.phase with
    | .settingReady status =>
      some { s with
        rb := s.rb.storeStatus (e.data - 8) (status ||| elmStatusReady)
        sent := s.sent.set k { e with phase := .ready } }
    | _ => none
  | none => none

/-- The copy of a byte out of an element. -/
def copyFrom (k i : Nat) : Option Solros :=
  match s.received[k]? with
  | some r =>
    if r.phase = .copying ∧ i < r.size then
      some { s with
        received := s.received.set k { r with dest := Function.update r.dest i (some (s.rb.buff (r.data + i))) } }
    else none
  | none => none

/-- `solros_ring_buffer_elm_set_done`, up to the test of the status. -/
def loadDone (k : Nat) : Option Solros :=
  match s.received[k]? with
  | some r =>
    if r.phase = .copying then
      let owner := (s.rb.elm (r.data - 8)).has elmStatusTombstoneOwner
      some { s with received := s.received.set k { r with phase := if owner then .settingTombstone else .settingDone } }
    else none
  | none => none

/-- The tombstone in front of the element. -/
def storeTombstone (k : Nat) : Option Solros :=
  match s.received[k]? with
  | some r =>
    if r.phase = .settingTombstone then
      let elmAddr := r.data - 8
      let tombstone := s.rb.size + elmAddr - (s.rb.elm elmAddr).size
      some { s with
        rb := s.rb.storeStatus tombstone (elmStatusTombstone ||| elmStatusReady ||| elmStatusDone)
        received := s.received.set k { r with phase := .settingDone } }
    else none
  | none => none

/-- The store of the status. -/
def storeDone (k : Nat) : Option Solros :=
  match s.received[k]? with
  | some r =>
    if r.phase = .settingDone then
      some { s with
        rb := s.rb.storeStatus (r.data - 8) elmStatusDone
        received := s.received.set k { r with phase := .done } }
    else none
  | none => none

end Solros

/-- What one of the users does next. -/
inductive SolrosAct where
  | request (payload : List UInt8)
  | putStep
  | requestGet
  | getStep
  | copyTo (k i : Nat)
  | loadReady (k : Nat)
  | storeReady (k : Nat)
  | copyFrom (k i : Nat)
  | loadDone (k : Nat)
  | storeTombstone (k : Nat)
  | storeDone (k : Nat)
  deriving DecidableEq, Repr

def SolrosAct.run (s : Solros) : SolrosAct → Option Solros
  | request payload => s.request payload
  | putStep => s.putStep
  | requestGet => s.requestGet
  | getStep => s.getStep
  | copyTo k i => s.copyTo k i
  | loadReady k => s.loadReady k
  | storeReady k => s.storeReady k
  | copyFrom k i => s.copyFrom k i
  | loadDone k => s.loadDone k
  | storeTombstone k => s.storeTombstone k
  | storeDone k => s.storeDone k

/-- The loop that reclaims behind `tail` is at the tombstone that a get has marked and has not passed
yet, and has not seen `tail` there.  Past it, `tail2` gets in front of `tail`. -/
def Solros.overtakes (s : Solros) : Bool :=
  match s.put, s.get with
  | .reapAggressively _ l, .pass p _ => decide (l.rbTail2 = p ∧ l.rbTail ≠ p)
  | _, _ => false

/-- A ring that nobody uses yet. -/
def Solros.new (rb : SolrosRing) : Solros := ⟨rb, .idle, .idle, [], []⟩

end Parfs
