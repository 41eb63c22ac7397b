/-
What holds of a ring between any two accesses.

Positions that only grow take the place of offsets: the pieces of the ring that are in use, which
are elements and tombstones, are tiles from `tail2` to `head`, and never as many as would meet
around the circle.  A get makes a piece its own when it stores to `tail`; a tombstone is taken
one access earlier, when its status is stored, since from then on it may be reclaimed.  So `tail`
may lag behind what is taken, by one tombstone.

Each of the two loops that reclaim knows what it has passed: pieces that are done, which stay so.
Each get knows the piece at `tail`, which nobody else takes.  A store is made to one piece, and
the others do not see it.
-/
import Parfs.Lib.Circular
import Parfs.Lib.Run
import Parfs.Solros

namespace Parfs

open Lib

/-! ### Headers in memory -/

section Memory

variable {m m' : ByteMem} {p q x status : Nat} {e : SolrosElm} {rb : SolrosRing}

def elmAt (m : ByteMem) (p : Nat) : SolrosElm := ⟨m.word p 4, m.word (p + 4) 2, m.word (p + 6) 2⟩

theorem elm_eq (rb : SolrosRing) (p : Nat) : rb.elm p = elmAt rb.buff p := rfl

theorem elmAt_congr (h : ∀ x, p ≤ x → x < p + 8 → m' x = m x) : elmAt m' p = elmAt m p := by
  unfold elmAt
  rw [ByteMem.word_congr fun x h1 h2 => h x (by omega) (by omega),
    ByteMem.word_congr fun x h1 h2 => h x (by omega) (by omega),
    ByteMem.word_congr fun x h1 h2 => h x (by omega) (by omega)]

theorem storeElm_of_outside (h : x < p ∨ p + 8 ≤ x) : (rb.storeElm p e).buff x = rb.buff x := by
  unfold SolrosRing.storeElm
  dsimp only
  rw [ByteMem.setWord_of_outside (by omega), ByteMem.setWord_of_outside (by omega),
    ByteMem.setWord_of_outside (by omega)]

theorem elmAt_storeElm (hsize : e.size < 2 ^ 32) (hpadding : e.padding < 2 ^ 16) (hstatus : e.status < 2 ^ 16) :
    elmAt (rb.storeElm p e).buff p = e := by
  unfold elmAt SolrosRing.storeElm
  dsimp only
  rw [ByteMem.word_setWord_of_disjoint (by omega), ByteMem.word_setWord_of_disjoint (by omega),
    ByteMem.word_setWord (by simpa using hsize), ByteMem.word_setWord_of_disjoint (by omega),
    ByteMem.word_setWord (by simpa using hpadding), ByteMem.word_setWord (by simpa using hstatus)]

theorem storeStatus_of_outside (h : x < p ∨ p + 8 ≤ x) : (rb.storeStatus p status).buff x = rb.buff x := by
  unfold SolrosRing.storeStatus
  dsimp only
  rw [ByteMem.setWord_of_outside (by omega)]

theorem elmAt_storeStatus (rb : SolrosRing) (p : Nat) (hstatus : status < 2 ^ 16) :
    elmAt (rb.storeStatus p status).buff p = { elmAt rb.buff p with status := status } := by
  unfold elmAt SolrosRing.storeStatus
  dsimp only
  rw [ByteMem.word_setWord_of_disjoint (by omega), ByteMem.word_setWord_of_disjoint (by omega),
    ByteMem.word_setWord (by simpa using hstatus)]

end Memory

/-! ### Statuses -/

/-- The status of an element that was put. -/
def statusOf (owner ready : Bool) : Nat :=
  elmStatusInit ||| (if owner then elmStatusTombstoneOwner else 0) ||| (if ready then elmStatusReady else 0)

/-- The status of a tombstone. -/
def tombstoneStatus (taken : Bool) : Nat :=
  elmStatusTombstone ||| elmStatusReady ||| (if taken then elmStatusDone else 0)

section Status

variable {owner ready taken : Bool} {size padding : Nat}

theorem SolrosElm.has_mk {status flag : Nat} :
    (SolrosElm.mk size padding status).has flag = decide (status &&& flag ≠ 0) := rfl

@[simp] theorem statusOf_done : (SolrosElm.mk size padding (statusOf owner ready)).has elmStatusDone = false := by
  rw [SolrosElm.has_mk]
  cases owner <;> cases ready <;> decide

@[simp] theorem statusOf_ready : (SolrosElm.mk size padding (statusOf owner ready)).has elmStatusReady = ready := by
  rw [SolrosElm.has_mk]
  cases owner <;> cases ready <;> decide

@[simp] theorem statusOf_tombstone :
    (SolrosElm.mk size padding (statusOf owner ready)).has elmStatusTombstone = false := by
  rw [SolrosElm.has_mk]
  cases owner <;> cases ready <;> decide

@[simp] theorem statusOf_owner :
    (SolrosElm.mk size padding (statusOf owner ready)).has elmStatusTombstoneOwner = owner := by
  rw [SolrosElm.has_mk]
  cases owner <;> cases ready <;> decide

theorem statusOf_lt : statusOf owner ready < 2 ^ 16 := by
  cases owner <;> cases ready <;> decide

theorem statusOf_setReady : statusOf owner ready ||| elmStatusReady = statusOf owner true := by
  cases owner <;> cases ready <;> decide

theorem statusOf_disown :
    statusOf owner ready - (statusOf owner ready &&& elmStatusTombstoneOwner) = statusOf false ready := by
  cases owner <;> cases ready <;> decide

@[simp] theorem tombstoneStatus_done : (SolrosElm.mk size padding (tombstoneStatus taken)).has elmStatusDone = taken := by
  rw [SolrosElm.has_mk]
  cases taken <;> decide

@[simp] theorem tombstoneStatus_tombstone :
    (SolrosElm.mk size padding (tombstoneStatus taken)).has elmStatusTombstone = true := by
  rw [SolrosElm.has_mk]
  cases taken <;> decide

theorem tombstoneStatus_lt : tombstoneStatus taken < 2 ^ 16 := by
  cases taken <;> decide

/-- The flags are in the status. -/
theorem SolrosElm.has_status {e : SolrosElm} {status : Nat} (h : e.status = status) (flag : Nat) :
    e.has flag = (SolrosElm.mk 0 0 status).has flag := by
  unfold SolrosElm.has
  rw [h]

end Status

/-! ### Pieces -/

/-- A piece of the ring: the element of a put, or a tombstone. -/
structure RingPiece where
  pos : Nat
  size : Nat
  elem : Option Nat
  deriving DecidableEq

/-- The bytes of a piece that are used. -/
def RingPiece.reach (g : RingPiece) : Nat := if g.elem = none then 8 else g.size

/-- An element of `e` as it is in memory. -/
structure Holds (m : ByteMem) (N : Nat) (e : Enqueue) (g : RingPiece) (status : Nat) : Prop where
  data : e.data = g.pos % N + 8
  fits : e.payload.length + 8 ≤ g.size
  inside : g.pos % N + g.size < N
  header : elmAt m (g.pos % N) = ⟨g.size, g.size - e.payload.length, status⟩
  copied : ∀ i ∈ e.copied, e.payload[i]? = some (m (e.data + i))
  full : e.phase ≠ .copying → e.copied = Finset.range e.payload.length
  setting : ∀ st, e.phase = .settingReady st → st = status

def Enqueue.isReady (e : Enqueue) : Bool := decide (e.phase = .ready)

/-- What a piece can be, when everything in front of `taken` has been taken. -/
inductive RingPieceOk (m : ByteMem) (N : Nat) (sent : List Enqueue) (received : List Dequeue) (taken : Nat) (g : RingPiece) : Prop
  | tombstone (hnone : g.elem = none) (hsize : (elmAt m (g.pos % N)).size = g.size)
      (hstatus : (elmAt m (g.pos % N)).status = tombstoneStatus (decide (g.pos < taken)))
  | waiting (k : Nat) (e : Enqueue) (owner : Bool) (helem : g.elem = some k) (hpos : taken ≤ g.pos)
      (hsent : sent[k]? = some e) (hnew : received.length ≤ k) (holds : Holds m N e g (statusOf owner e.isReady))
  | taken (k : Nat) (e : Enqueue) (r : Dequeue) (helem : g.elem = some k) (hpos : g.pos < taken)
      (hsent : sent[k]? = some e) (hreceived : received[k]? = some r) (hphase : r.phase ≠ .done)
      (hready : e.phase = .ready) (holds : Holds m N e g (statusOf false true))
  | done (k : Nat) (r : Dequeue) (helem : g.elem = some k) (hpos : g.pos < taken) (hreceived : received[k]? = some r)
      (hphase : r.phase = .done) (hsize : (elmAt m (g.pos % N)).size = g.size)
      (hstatus : (elmAt m (g.pos % N)).status = elmStatusDone)

/-- What was received is what was sent. -/
structure Delivered (e : Enqueue) (r : Dequeue) : Prop where
  ready : e.phase = .ready
  data : r.data = e.data
  size : r.size = e.payload.length
  dest : ∀ i b, r.dest i = some b → e.payload[i]? = some b
  phase : r.phase ≠ .settingTombstone

/-- The positions of a ring; `tail2`, `tail` and `head` stand for the offsets. -/
structure Laps where
  tail2 : Nat
  tail : Nat
  taken : Nat
  head : Nat
  pieces : List RingPiece

/-- The sizes of a ring. -/
structure SolrosRing.Ok (rb : SolrosRing) : Prop where
  align : 8 ∣ rb.alignMask + 1
  size : rb.alignMask + 1 ∣ rb.size
  small : rb.size < 2 ^ 32
  padding : rb.alignMask + 9 < 2 ^ 16

/-- The ring and what is in it. -/
structure Around (rb : SolrosRing) (sent : List Enqueue) (received : List Dequeue) (l : Laps) : Prop where
  ok : rb.Ok
  tiled : Tiles RingPiece.pos RingPiece.size l.tail2 l.pieces l.head
  room : l.head + 9 ≤ l.tail2 + rb.size
  head : rb.head = l.head % rb.size
  tail : rb.tail = l.tail % rb.size
  tail2 : rb.tail2 = l.tail2 % rb.size
  headAligned : rb.alignMask + 1 ∣ l.head + 8
  aligned : ∀ g ∈ l.pieces, rb.alignMask + 1 ∣ g.pos + 8
  sizes : ∀ g ∈ l.pieces, rb.alignMask + 1 ∣ g.size
  cutTaken : Between RingPiece.pos RingPiece.size l.pieces l.taken
  cutTail : Between RingPiece.pos RingPiece.size l.pieces l.tail
  takenLo : l.tail2 ≤ l.taken
  takenHi : l.taken ≤ l.head
  tailLe : l.tail ≤ l.taken
  pieces : ∀ g ∈ l.pieces, RingPieceOk rb.buff rb.size sent received l.taken g
  ordered : l.pieces.Pairwise fun g g' => ∀ k k', g.elem = some k → g'.elem = some k' → k < k'
  waiting : ∀ k : Nat, received.length ≤ k → k < sent.length → ∃ g ∈ l.pieces, g.elem = some k
  inUse : ∀ (k : Nat) (r : Dequeue), received[k]? = some r → r.phase ≠ .done → ∃ g ∈ l.pieces, g.elem = some k
  delivered : ∀ (k : Nat) (r : Dequeue), received[k]? = some r → ∃ e, sent[k]? = some e ∧ Delivered e r

section Around

variable {rb : SolrosRing} {m m' : ByteMem} {N taken : Nat} {sent sent' : List Enqueue} {received received' : List Dequeue}
  {l : Laps} {g g' : RingPiece} {e : Enqueue} {status : Nat}

/-- An element is told by the bytes of its piece. -/
theorem Holds.frame (h : Holds m N e g status) (hm : ∀ x, g.pos % N ≤ x → x < g.pos % N + g.size → m' x = m x) :
    Holds m' N e g status := by
  have hfits := h.fits
  refine ⟨h.data, h.fits, h.inside, ?_, fun i hi => ?_, h.full, h.setting⟩
  · rw [elmAt_congr fun x h1 h2 => hm x h1 (by omega)]
    exact h.header
  · have hbyte := h.copied i hi
    obtain ⟨hlt, -⟩ := List.getElem?_eq_some_iff.mp hbyte
    have hdata := h.data
    rw [hm (e.data + i) (by omega) (by omega)]
    exact hbyte

/-- A piece does not see what is done to the others. -/
theorem RingPieceOk.frame (h : RingPieceOk m N sent received taken g) (hreach : 8 ≤ g.reach)
    (hm : ∀ x, g.pos % N ≤ x → x < g.pos % N + g.reach → m' x = m x)
    (hsent : ∀ k, g.elem = some k → sent'[k]? = sent[k]?)
    (hreceived : ∀ k, g.elem = some k →
      received'[k]? = received[k]? ∧ (received.length ≤ k → received'.length ≤ k)) :
    RingPieceOk m' N sent' received' taken g := by
  have helm : elmAt m' (g.pos % N) = elmAt m (g.pos % N) := elmAt_congr fun x h1 h2 => hm x h1 (by omega)
  have hsize : ∀ k, g.elem = some k → g.reach = g.size := fun k hk => if_neg (by rw [hk]; simp)
  cases h with
  | tombstone hnone hsz hst => exact .tombstone hnone (helm ▸ hsz) (helm ▸ hst)
  | waiting k e owner helem hpos hs hnew holds =>
      exact .waiting k e owner helem hpos ((hsent k helem).trans hs) ((hreceived k helem).2 hnew)
        (holds.frame fun x h1 h2 => hm x h1 (hsize k helem ▸ h2))
  | taken k e r helem hpos hs hr hphase hready holds =>
      exact .taken k e r helem hpos ((hsent k helem).trans hs) ((hreceived k helem).1.trans hr) hphase hready
        (holds.frame fun x h1 h2 => hm x h1 (hsize k helem ▸ h2))
  | done k r helem hpos hr hphase hsz hst =>
      exact .done k r helem hpos ((hreceived k helem).1.trans hr) hphase (helm ▸ hsz) (helm ▸ hst)

theorem Around.eight (h : Around rb sent received l) (hg : g ∈ l.pieces) : 8 ≤ g.reach ∧ g.reach ≤ g.size := by
  have hsize : 8 ≤ g.size := Nat.le_of_dvd (h.tiled.mem hg).2.2 (h.ok.align.trans (h.sizes g hg))
  unfold RingPiece.reach
  split
  · exact ⟨Nat.le_refl _, hsize⟩
  · exact ⟨hsize, Nat.le_refl _⟩

theorem Around.size_pos (h : Around rb sent received l) : 0 < rb.size := by
  have hle := h.tiled.le
  have hroom := h.room
  omega

/-- Two pieces do not meet. -/
theorem Around.apart (h : Around rb sent received l) (hg : g ∈ l.pieces) (hg' : g' ∈ l.pieces) (hne : g ≠ g') :
    g.pos % rb.size + g.reach ≤ g'.pos % rb.size ∨ g'.pos % rb.size + g'.reach ≤ g.pos % rb.size := by
  have hmem := h.tiled.mem hg
  have hmem' := h.tiled.mem hg'
  have hroom := h.room
  have hreach := (h.eight hg).2
  have hreach' := (h.eight hg').2
  rcases h.tiled.apart hg hg' hne with hle | hle
  · exact mod_apart (by omega) (by omega) h.size_pos
  · exact (mod_apart (by omega) (by omega) h.size_pos).symm

/-- There is room for a header at `head`. -/
theorem Around.away (h : Around rb sent received l) (hg : g ∈ l.pieces) :
    g.pos % rb.size + g.reach ≤ l.head % rb.size ∨ l.head % rb.size + 8 ≤ g.pos % rb.size := by
  have hmem := h.tiled.mem hg
  have hroom := h.room
  have hreach := (h.eight hg).2
  exact mod_apart (by omega) (by omega) h.size_pos

/-- What comes later in the ring was put later. -/
theorem Around.elem_lt (h : Around rb sent received l) (hg : g ∈ l.pieces) (hg' : g' ∈ l.pieces) (hlt : g.pos < g'.pos)
    {k k' : Nat} (hk : g.elem = some k) (hk' : g'.elem = some k') : k < k' := by
  have hboth : l.pieces.Pairwise fun g g' => (g.pos < g'.pos → ∀ k k', g.elem = some k → g'.elem = some k' → k < k') ∧
      (g'.pos < g.pos → ∀ k k', g'.elem = some k → g.elem = some k' → k < k') := by
    refine (h.tiled.pairwise.and h.ordered).imp fun hpair => ⟨fun _ => hpair.2, fun hback => ?_⟩
    have hfront := hpair.1
    omega
  have hsymm : Std.Symm fun g g' : RingPiece => (g.pos < g'.pos → ∀ k k', g.elem = some k → g'.elem = some k' → k < k') ∧
      (g'.pos < g.pos → ∀ k k', g'.elem = some k → g.elem = some k' → k < k') := ⟨fun _ _ hpair => hpair.symm⟩
  have hne : g ≠ g' := fun heq => Nat.lt_irrefl _ (heq ▸ hlt)
  exact (hboth.forall hg hg' hne).1 hlt k k' hk hk'

/-- A put has one piece. -/
theorem Around.elem_inj (h : Around rb sent received l) (hg : g ∈ l.pieces) (hg' : g' ∈ l.pieces) {k : Nat}
    (hk : g.elem = some k) (hk' : g'.elem = some k) : g = g' := by
  rcases Nat.lt_trichotomy g.pos g'.pos with hlt | heq | hlt
  · exact absurd (h.elem_lt hg hg' hlt hk hk') (Nat.lt_irrefl k)
  · exact h.tiled.pos_inj hg hg' heq
  · exact absurd (h.elem_lt hg' hg hlt hk' hk) (Nat.lt_irrefl k)

/-- The first piece that is not taken is the next put. -/
theorem Around.next (h : Around rb sent received l) (hg : g ∈ l.pieces) (hpos : g.pos = l.taken) {k : Nat}
    (hk : g.elem = some k) :
    k = received.length ∧ ∃ e owner, sent[k]? = some e ∧ Holds rb.buff rb.size e g (statusOf owner e.isReady) := by
  cases h.pieces g hg with
  | tombstone hnone => simp [hnone] at hk
  | taken k' e r helem hlt => exact absurd hpos (Nat.ne_of_lt hlt)
  | done k' r helem hlt => exact absurd hpos (Nat.ne_of_lt hlt)
  | waiting k' e owner helem _ hsent hnew holds =>
      obtain rfl : k' = k := Option.some.inj (helem.symm.trans hk)
      refine ⟨?_, e, owner, hsent, holds⟩
      by_contra hne
      obtain ⟨hlen, -⟩ := List.getElem?_eq_some_iff.mp hsent
      obtain ⟨g', hg', hk'⟩ := h.waiting received.length (Nat.le_refl _) (by omega)
      have hpos' : l.taken ≤ g'.pos := by
        cases h.pieces g' hg' with
        | tombstone hnone => simp [hnone] at hk'
        | waiting k' e' owner' helem' hle => exact hle
        | taken k' e' r helem' _ _ hreceived =>
            obtain rfl : k' = received.length := Option.some.inj (helem'.symm.trans hk')
            simp at hreceived
        | done k' r helem' _ hreceived =>
            obtain rfl : k' = received.length := Option.some.inj (helem'.symm.trans hk')
            simp at hreceived
      rcases Nat.eq_or_lt_of_le hpos' with heq | hlt
      · have hsame := h.tiled.pos_inj hg hg' (hpos.trans heq)
        rw [hsame, hk', Option.some.injEq] at hk
        exact hne hk.symm
      · have hord := h.elem_lt hg hg' (hpos ▸ hlt) hk hk'
        omega

end Around

/-! ### Those who put and get -/

/-- Nothing is going to be done with a piece. -/
def RingPiece.Done (received : List Dequeue) (taken : Nat) (g : RingPiece) : Prop :=
  (g.elem = none ∧ g.pos < taken) ∨ ∃ k r, g.elem = some k ∧ received[k]? = some r ∧ r.phase = .done

/-- What a loop has passed, up to `t`. -/
structure Past (received : List Dequeue) (l : Laps) (t : Nat) : Prop where
  lo : l.tail2 ≤ t
  cut : Between RingPiece.pos RingPiece.size l.pieces t
  done : ∀ g ∈ l.pieces, g.pos < t → g.Done received l.taken

structure ReqOk (rb : SolrosRing) (req : PutReq) : Prop where
  size : rb.alignMask + 1 ∣ req.asize
  pos : 0 < req.asize
  max : req.asize ≤ rb.size
  fits : req.payload.length + 8 ≤ req.asize
  padding : req.asize - req.payload.length < 2 ^ 16
  status : ∃ owner, req.elmInitStatus = statusOf owner false

structure ReapOk (rb : SolrosRing) (received : List Dequeue) (l : Laps) (r : Reap) (t from_ : Nat) : Prop where
  past : Past received l t
  tail2 : r.rbTail2 = t % rb.size
  tail : r.rbTail = from_ % rb.size
  cut : Between RingPiece.pos RingPiece.size l.pieces from_
  lo : t ≤ from_
  hi : from_ ≤ l.tail

/-- `from_` is where `tail` was when the loop began. -/
structure AggressiveOk (rb : SolrosRing) (received : List Dequeue) (l : Laps) (r : AggressiveReap) (t from_ : Nat) : Prop where
  past : Past received l t
  hi : t ≤ l.head
  tail2 : r.rbTail2 = t % rb.size
  tail : r.rbTail = from_ % rb.size
  head : r.rbHead = l.head % rb.size
  cut : Between RingPiece.pos RingPiece.size l.pieces from_
  fromLo : l.tail2 ≤ from_
  fromHi : from_ ≤ l.tail
  changed : r.changedTail = true → from_ ≤ t
  same : r.changedTail = false → t ≤ from_
  tailLo : t ≤ l.tail ∨ (l.tail = from_ ∧ t = l.taken)

/-- When `tail2` is stored and `tail` may have to catch up. -/
structure CatchUp (rb : SolrosRing) (l : Laps) (rbTail rbTail2 from_ : Nat) : Prop where
  tail : rbTail = from_ % rb.size
  tail2 : rbTail2 = l.tail2 % rb.size
  lo : from_ ≤ l.tail2
  hi : from_ ≤ l.tail
  room : l.head < from_ + rb.size
  tailLo : l.tail2 ≤ l.tail ∨ (l.tail = from_ ∧ l.tail2 = l.taken)

structure PublishOk (rb : SolrosRing) (l : Laps) (req : PutReq) (elmAddr rbHead : Nat) (tombstone : Bool) : Prop where
  addr : elmAddr = l.head % rb.size
  head : rbHead = (l.head + req.asize) % rb.size
  room : l.head + req.asize + 9 ≤ l.tail2 + rb.size
  elm : if tombstone then (elmAt rb.buff elmAddr).size = req.asize ∧ (elmAt rb.buff elmAddr).status = tombstoneStatus false
    else elmAddr + req.asize < rb.size ∧
      elmAt rb.buff elmAddr = ⟨req.asize, req.asize - req.payload.length, req.elmInitStatus⟩

/-- What a put knows. -/
inductive PutOk (rb : SolrosRing) (received : List Dequeue) (l : Laps) : PutPc → Prop
  | idle (hlo : l.tail2 ≤ l.tail) : PutOk rb received l .idle
  | start (req : PutReq) (hreq : ReqOk rb req) (hlo : l.tail2 ≤ l.tail) : PutOk rb received l (.start req)
  | reap (req : PutReq) (r : Reap) (t from_ : Nat) (hreq : ReqOk rb req) (hloop : ReapOk rb received l r t from_) :
      PutOk rb received l (.reap req r)
  | aggressive (req : PutReq) (reapSize : Nat) (hreq : ReqOk rb req) (hlo : l.tail2 ≤ l.tail) :
      PutOk rb received l (.aggressive req reapSize)
  | reapAggressively (req : PutReq) (r : AggressiveReap) (t from_ : Nat) (hreq : ReqOk rb req)
      (hloop : AggressiveOk rb received l r t from_) : PutOk rb received l (.reapAggressively req r)
  | checkTail (req : PutReq) (rbTail rbTail2 from_ : Nat) (hreq : ReqOk rb req) (hcatch : CatchUp rb l rbTail rbTail2 from_) :
      PutOk rb received l (.checkTail req rbTail rbTail2)
  | cas (req : PutReq) (rbTail rbTail2 from_ : Nat) (hreq : ReqOk rb req) (hcatch : CatchUp rb l rbTail rbTail2 from_) :
      PutOk rb received l (.cas req rbTail rbTail2)
  | locate (req : PutReq) (hreq : ReqOk rb req) (hlo : l.tail2 ≤ l.tail) : PutOk rb received l (.locate req)
  | publish (req : PutReq) (elmAddr rbHead : Nat) (tombstone : Bool) (hreq : ReqOk rb req) (hlo : l.tail2 ≤ l.tail)
      (helm : PublishOk rb l req elmAddr rbHead tombstone) : PutOk rb received l (.publish req elmAddr rbHead tombstone)

/-- The element a get has found at `tail`; `elm` is its header, but for the status. -/
structure Found (rb : SolrosRing) (l : Laps) (p : Nat) (elm : SolrosElm) (rbTail : Nat) (g : RingPiece) : Prop where
  caught : l.tail = l.taken
  mem : g ∈ l.pieces
  pos : g.pos = l.taken
  some : g.elem ≠ none
  addr : p = g.pos % rb.size
  next : rbTail = (g.pos + g.size) % rb.size
  size : elm.size = (elmAt rb.buff p).size
  padding : elm.padding = (elmAt rb.buff p).padding
  ready : (elmAt rb.buff p).has elmStatusReady = true

/-- What a get knows. -/
inductive GetOk (rb : SolrosRing) (l : Laps) : GetPc → Prop
  | idle (hcaught : l.tail = l.taken) : GetOk rb l .idle
  | empty (hcaught : l.tail = l.taken) : GetOk rb l .empty
  | emptyTail (h from_ : Nat) (hcaught : l.tail = l.taken) (hlo : l.taken ≤ from_) (hhi : from_ ≤ l.head)
      (hhead : h = from_ % rb.size) : GetOk rb l (.emptyTail h)
  | emptyAgain (hcaught : l.tail = l.taken) : GetOk rb l .emptyAgain
  | emptyAgainTail (h from_ : Nat) (hcaught : l.tail = l.taken) (hlo : l.taken ≤ from_) (hhi : from_ ≤ l.head)
      (hhead : h = from_ % rb.size) : GetOk rb l (.emptyAgainTail h)
  | locate (hcaught : l.tail = l.taken) (hsome : l.taken < l.head) : GetOk rb l .locate
  | load (p : Nat) (hcaught : l.tail = l.taken) (hsome : l.taken < l.head) (haddr : p = l.taken % rb.size) : GetOk rb l (.load p)
  | next (p : Nat) (elm : SolrosElm) (hcaught : l.tail = l.taken) (hsome : l.taken < l.head)
      (haddr : p = l.taken % rb.size) (helm : elm = elmAt rb.buff p) (hready : elm.has elmStatusReady = true) :
      GetOk rb l (.next p elm)
  | reclaim (p rbTail : Nat) (g : RingPiece) (hcaught : l.tail = l.taken) (hg : g ∈ l.pieces) (hpos : g.pos = l.taken)
      (hnone : g.elem = none) (haddr : p = g.pos % rb.size) (hnext : rbTail = (g.pos + g.size) % rb.size) :
      GetOk rb l (.reclaim p rbTail)
  | pass (p rbTail : Nat) (hnext : rbTail = l.taken % rb.size)
      (htail : l.tail = l.taken ∨ (p = l.tail % rb.size ∧ l.tail < l.taken ∧
        ∀ g ∈ l.pieces, g.pos = l.tail → g.pos + g.size = l.taken)) : GetOk rb l (.pass p rbTail)
  | owner (p : Nat) (elm : SolrosElm) (rbTail : Nat) (g : RingPiece) (hfound : Found rb l p elm rbTail g) :
      GetOk rb l (.owner p elm rbTail)
  | disown (p : Nat) (elm : SolrosElm) (rbTail status : Nat) (g : RingPiece) (hfound : Found rb l p elm rbTail g)
      (hstatus : status = (elmAt rb.buff p).status) : GetOk rb l (.disown p elm rbTail status)
  | publish (p : Nat) (elm : SolrosElm) (rbTail : Nat) (g : RingPiece) (hfound : Found rb l p elm rbTail g)
      (hstatus : (elmAt rb.buff p).status = statusOf false true) : GetOk rb l (.publish p elm rbTail)

/-- The invariant. -/
structure SolrosInv (s : Solros) (l : Laps) : Prop where
  around : Around s.rb s.sent s.received l
  put : PutOk s.rb s.received l s.put
  get : GetOk s.rb l s.get

section Loops

variable {rb : SolrosRing} {sent : List Enqueue} {received : List Dequeue} {l : Laps} {g : RingPiece} {t from_ : Nat}

/-- The header of a piece says how long it is, and whether it is done. -/
theorem Around.elm (h : Around rb sent received l) (hg : g ∈ l.pieces) :
    (elmAt rb.buff (g.pos % rb.size)).size = g.size ∧
      ((elmAt rb.buff (g.pos % rb.size)).has elmStatusDone = true ↔ g.Done received l.taken) := by
  unfold RingPiece.Done
  cases h.pieces g hg with
  | tombstone hnone hsize hstatus =>
      refine ⟨hsize, ?_⟩
      rw [SolrosElm.has_status hstatus, tombstoneStatus_done]
      simp [hnone]
  | waiting k e owner helem hpos hsent hnew holds =>
      rw [holds.header]
      have hout : received[k]? = none := List.getElem?_eq_none hnew
      simp [helem, hout]
  | taken k e r helem hpos hsent hreceived hphase hready holds =>
      rw [holds.header]
      simp [helem, hreceived, hphase]
  | done k r helem hpos hreceived hphase hsize hstatus =>
      refine ⟨hsize, ?_⟩
      rw [SolrosElm.has_status hstatus, SolrosElm.has_mk]
      simp [helem, hreceived, hphase, elmStatusDone]

theorem Past.le_taken (h : Around rb sent received l) (hpast : Past received l t) (hhi : t ≤ l.head) : t ≤ l.taken := by
  by_contra hlt
  obtain ⟨g, hg, hpos⟩ := h.tiled.tile h.cutTaken h.takenLo (by omega)
  rcases hpast.done g hg (by omega) with ⟨-, hlt'⟩ | ⟨k, r, hk, hr, -⟩
  · omega
  · obtain ⟨rfl, -⟩ := h.next hg hpos hk
    simp at hr

/-- The loop goes past one more piece. -/
theorem Past.step (h : Around rb sent received l) (hpast : Past received l t) (hg : g ∈ l.pieces) (hpos : g.pos = t)
    (hdone : g.Done received l.taken) : Past received l (t + g.size) := by
  refine ⟨Nat.le_trans hpast.lo (Nat.le_add_right _ _), hpos ▸ h.tiled.cut_next hg, fun g' hg' hlt => ?_⟩
  by_cases hlt' : g'.pos < t
  · exact hpast.done g' hg' hlt'
  · have heq : g' = g := by
      by_contra hne
      have hlen := (h.tiled.mem hg').2.2
      rcases h.tiled.apart hg' hg hne with hle | hle <;> omega
    rw [heq]
    exact hdone

end Loops

section Steps

variable {rb rb' : SolrosRing} {m' : ByteMem} {sent sent' : List Enqueue} {received received' : List Dequeue}
  {l l' : Laps} {g : RingPiece} {t from_ a b k : Nat} {e : Enqueue} {pput : PutPc} {pget : GetPc}

/-! ### What the others do -/

/-- A put is not troubled by what else goes on. -/
theorem PutOk.frame (h : PutOk rb received l pput) (hsize : rb'.size = rb.size) (hmask : rb'.alignMask = rb.alignMask)
    (hhead : elmAt rb'.buff (l.head % rb.size) = elmAt rb.buff (l.head % rb.size))
    (hdone : ∀ g ∈ l.pieces, g.Done received l.taken → g.Done received' b) (htail : l.tail ≤ a) (htaken : l.taken ≤ b)
    (hmove : (a = l.tail ∧ b = l.taken) ∨ l.tail = l.taken ∨ a = b) :
    PutOk rb' received' { l with tail := a, taken := b } pput := by
  have hreq : ∀ {req : PutReq}, ReqOk rb req → ReqOk rb' req := fun hr =>
    ⟨hmask.symm ▸ hr.size, hr.pos, hsize.symm ▸ hr.max, hr.fits, hr.padding, hr.status⟩
  have hpast : ∀ {t : Nat}, Past received l t → Past received' { l with tail := a, taken := b } t := fun hp =>
    ⟨hp.lo, hp.cut, fun g hg hlt => hdone g hg (hp.done g hg hlt)⟩
  have hlag : ∀ {t f : Nat}, t ≤ l.tail ∨ (l.tail = f ∧ t = l.taken) → t ≤ a ∨ (a = f ∧ t = b) := by
    intro t f hor
    omega
  cases h with
  | idle hlo => exact .idle (Nat.le_trans hlo htail)
  | start req hr hlo => exact .start req (hreq hr) (Nat.le_trans hlo htail)
  | reap req r t from_ hr hloop =>
      exact .reap req r t from_ (hreq hr) ⟨hpast hloop.past, hsize ▸ hloop.tail2, hsize ▸ hloop.tail, hloop.cut, hloop.lo,
        Nat.le_trans hloop.hi htail⟩
  | aggressive req n hr hlo => exact .aggressive req n (hreq hr) (Nat.le_trans hlo htail)
  | reapAggressively req r t from_ hr hloop =>
      exact .reapAggressively req r t from_ (hreq hr) ⟨hpast hloop.past, hloop.hi, hsize ▸ hloop.tail2, hsize ▸ hloop.tail,
        hsize ▸ hloop.head, hloop.cut, hloop.fromLo, Nat.le_trans hloop.fromHi htail, hloop.changed, hloop.same,
        hlag hloop.tailLo⟩
  | checkTail req x y from_ hr hc =>
      exact .checkTail req x y from_ (hreq hr) ⟨hsize ▸ hc.tail, hsize ▸ hc.tail2, hc.lo, Nat.le_trans hc.hi htail,
        hsize ▸ hc.room, hlag hc.tailLo⟩
  | cas req x y from_ hr hc =>
      exact .cas req x y from_ (hreq hr) ⟨hsize ▸ hc.tail, hsize ▸ hc.tail2, hc.lo, Nat.le_trans hc.hi htail,
        hsize ▸ hc.room, hlag hc.tailLo⟩
  | locate req hr hlo => exact .locate req (hreq hr) (Nat.le_trans hlo htail)
  | publish req p n tomb hr hlo helm =>
      refine .publish req p n tomb (hreq hr) (Nat.le_trans hlo htail) ⟨hsize ▸ helm.addr, hsize ▸ helm.head,
        hsize ▸ helm.room, ?_⟩
      have hsame : elmAt rb'.buff p = elmAt rb.buff p := by
        rw [helm.addr]
        exact hhead
      rw [hsame, hsize]
      exact helm.elm

/-- A get is not troubled either, as long as nobody touches the element it is about to take. -/
theorem GetOk.frame (h : GetOk rb l pget) (hsize : rb'.size = rb.size) (htail : l'.tail = l.tail) (htaken : l'.taken = l.taken)
    (hhead : l.head ≤ l'.head) (hkept : ∀ g ∈ l.pieces, g.pos = l.taken → g ∈ l'.pieces)
    (hback : l.tail < l.taken → ∀ g ∈ l'.pieces, g.pos = l.tail → g ∈ l.pieces)
    (helm : l.taken < l.head → (elmAt rb.buff (l.taken % rb.size)).has elmStatusReady = true →
      elmAt rb'.buff (l.taken % rb.size) = elmAt rb.buff (l.taken % rb.size))
    (hmem : ∀ g ∈ l.pieces, g.pos = l.taken → l.taken < l.head) : GetOk rb' l' pget := by
  have hcaught : l.tail = l.taken → l'.tail = l'.taken := fun hc => htail.trans (hc.trans htaken.symm)
  have hfound : ∀ {p : Nat} {elm : SolrosElm} {x : Nat} {g : RingPiece}, Found rb l p elm x g →
      elmAt rb'.buff p = elmAt rb.buff p ∧ Found rb' l' p elm x g := by
    intro p elm x g hf
    have hp : p = l.taken % rb.size := by rw [hf.addr, hf.pos]
    have hsame : elmAt rb'.buff p = elmAt rb.buff p := by
      rw [hp]
      exact helm (hmem g hf.mem hf.pos) (hp ▸ hf.ready)
    refine ⟨hsame, hcaught hf.caught, hkept g hf.mem hf.pos, hf.pos.trans htaken.symm, hf.some, hsize ▸ hf.addr,
      hsize ▸ hf.next, ?_, ?_, ?_⟩
    · rw [hsame]
      exact hf.size
    · rw [hsame]
      exact hf.padding
    · rw [hsame]
      exact hf.ready
  cases h with
  | idle hc => exact .idle (hcaught hc)
  | empty hc => exact .empty (hcaught hc)
  | emptyTail h f hc hlo hhi hh =>
      exact .emptyTail h f (hcaught hc) (htaken ▸ hlo) (Nat.le_trans hhi hhead) (hsize ▸ hh)
  | emptyAgain hc => exact .emptyAgain (hcaught hc)
  | emptyAgainTail h f hc hlo hhi hh =>
      exact .emptyAgainTail h f (hcaught hc) (htaken ▸ hlo) (Nat.le_trans hhi hhead) (hsize ▸ hh)
  | locate hc hlt => exact .locate (hcaught hc) (by omega)
  | load p hc hlt hp => exact .load p (hcaught hc) (by omega) (by rw [htaken, hsize]; exact hp)
  | next p elm hc hlt hp he hready =>
      refine .next p elm (hcaught hc) (by omega) (by rw [htaken, hsize]; exact hp) ?_ hready
      rw [hp, helm hlt (by rw [← hp, ← he]; exact hready), ← hp]
      exact he
  | reclaim p x g hc hg hpos hnone hp hx =>
      exact .reclaim p x g (hcaught hc) (hkept g hg hpos) (hpos.trans htaken.symm) hnone (hsize ▸ hp) (hsize ▸ hx)
  | pass p x hx hpass =>
      refine .pass p x (by rw [htaken, hsize]; exact hx) ?_
      rw [htail, htaken, hsize]
      exact hpass.imp id fun ⟨hp, hlt, hall⟩ => ⟨hp, hlt, fun g hg hpos => hall g (hback hlt g hg hpos) hpos⟩
  | owner p elm x g hf => exact .owner p elm x g (hfound hf).2
  | disown p elm x st g hf hst => exact .disown p elm x st g (hfound hf).2 (by rw [(hfound hf).1]; exact hst)
  | publish p elm x g hf hst => exact .publish p elm x g (hfound hf).2 (by rw [(hfound hf).1]; exact hst)

end Steps

/-! ### What a store does -/

section Stores

variable {rb rb' : SolrosRing} {N : Nat} {m' : ByteMem} {sent sent' : List Enqueue} {received received' : List Dequeue}
  {l : Laps} {g g' : RingPiece} {t a b asize : Nat} {o : Option Nat}

theorem SolrosRing.Ok.congr (h : rb.Ok) (hsize : rb'.size = rb.size) (hmask : rb'.alignMask = rb.alignMask) : rb'.Ok := by
  obtain ⟨h1, h2, h3, h4⟩ := h
  rw [← hmask] at h1 h2 h4
  rw [← hsize] at h2 h3
  exact ⟨h1, h2, h3, h4⟩

theorem RingPieceOk.move {m : ByteMem} (h : RingPieceOk m N sent received a g) (hiff : g.pos < a ↔ g.pos < b) :
    RingPieceOk m N sent received b g := by
  cases h with
  | tombstone hnone hsz hst =>
      refine .tombstone hnone hsz ?_
      rw [decide_eq_decide.mpr hiff] at hst
      exact hst
  | waiting k e owner helem hpos hs hnew holds => exact .waiting k e owner helem (by omega) hs hnew holds
  | taken k e r helem hpos hs hr hphase hready holds => exact .taken k e r helem (hiff.mp hpos) hs hr hphase hready holds
  | done k r helem hpos hr hphase hsz hst => exact .done k r helem (hiff.mp hpos) hr hphase hsz hst

/-- A store to a piece, and what goes with it. -/
theorem Around.store (h : Around rb sent received l) (hg : g ∈ l.pieces) (hsize : rb'.size = rb.size)
    (hmask : rb'.alignMask = rb.alignMask) (hhead : rb'.head = rb.head) (htail2 : rb'.tail2 = rb.tail2)
    (hm : ∀ x, x < g.pos % rb.size ∨ g.pos % rb.size + g.reach ≤ x → rb'.buff x = rb.buff x)
    (htail : rb'.tail = a % rb.size) (hcutTail : Between RingPiece.pos RingPiece.size l.pieces a)
    (hcut : Between RingPiece.pos RingPiece.size l.pieces b) (hlo : l.tail2 ≤ b) (hhi : b ≤ l.head) (hle : a ≤ b)
    (htaken : ∀ g' ∈ l.pieces, g' ≠ g → (g'.pos < l.taken ↔ g'.pos < b))
    (hsent : ∀ k, g.elem ≠ some k → sent'[k]? = sent[k]?)
    (hreceived : ∀ k, g.elem ≠ some k → received'[k]? = received[k]?)
    (hpiece : RingPieceOk rb'.buff rb.size sent' received' b g)
    (hdelivered : ∀ k r, g.elem = some k → received'[k]? = some r → ∃ e, sent'[k]? = some e ∧ Delivered e r) :
    Around rb' sent' received' { l with tail := a, taken := b } := by
  refine ⟨h.ok.congr hsize hmask, h.tiled, hsize ▸ h.room, ?_, hsize ▸ htail, ?_, hmask ▸ h.headAligned, hmask ▸ h.aligned,
    hmask ▸ h.sizes, hcut, hcutTail, hlo, hhi, hle, ?_, h.ordered, ?_, ?_, ?_⟩
  · rw [hhead, hsize]
    exact h.head
  · rw [htail2, hsize]
    exact h.tail2
  · intro g' hg'
    rw [hsize]
    by_cases hne : g' = g
    · rw [hne]
      exact hpiece
    · have helem : ∀ k, g'.elem = some k → g.elem ≠ some k := fun k hk hk' => hne (h.elem_inj hg' hg hk hk')
      refine ((h.pieces g' hg').frame (h.eight hg').1 (fun x h1 h2 => hm x ?_) (fun k hk => hsent k (helem k hk))
        fun k hk => ⟨hreceived k (helem k hk), fun hlen => ?_⟩).move (htaken g' hg' hne)
      · rcases h.apart hg' hg hne with hle | hle <;> omega
      · have hout := (hreceived k (helem k hk)).trans (List.getElem?_eq_none hlen)
        exact List.getElem?_eq_none_iff.mp hout
  · intro k hlen hlt
    by_cases hk : g.elem = some k
    · exact ⟨g, hg, hk⟩
    · have hout := (hreceived k hk).symm.trans (List.getElem?_eq_none hlen)
      obtain ⟨e, he⟩ : ∃ e, sent'[k]? = some e := ⟨_, List.getElem?_eq_getElem hlt⟩
      have hin := (hsent k hk).symm.trans he
      exact h.waiting k (List.getElem?_eq_none_iff.mp hout) (List.getElem?_eq_some_iff.mp hin).1
  · intro k r hr hphase
    by_cases hk : g.elem = some k
    · exact ⟨g, hg, hk⟩
    · exact h.inUse k r ((hreceived k hk).symm.trans hr) hphase
  · intro k r hr
    by_cases hk : g.elem = some k
    · exact hdelivered k r hk hr
    · obtain ⟨e, he, hdel⟩ := h.delivered k r ((hreceived k hk).symm.trans hr)
      exact ⟨e, (hsent k hk).trans he, hdel⟩

/-- `tail` catches up, or does not. -/
theorem Around.moveTail (h : Around rb sent received l) (hcut : Between RingPiece.pos RingPiece.size l.pieces a) (hle : a ≤ l.taken) :
    Around { rb with tail := a % rb.size } sent received { l with tail := a } :=
  { h with ok := h.ok.congr rfl rfl, tail := rfl, cutTail := hcut, tailLe := hle }

/-- What a loop has passed is given up. -/
theorem Around.drop (h : Around rb sent received l) (hpast : Past received l t) (hhi : t ≤ l.head) :
    ∃ A B, l.pieces = A ++ B ∧ (∀ g ∈ A, g.pos + g.size ≤ t) ∧
      Around { rb with tail2 := t % rb.size } sent received { l with tail2 := t, pieces := B } := by
  obtain ⟨A, B, hAB, hA, hB⟩ := h.tiled.split hpast.cut hpast.lo hhi
  have hsub : ∀ g ∈ B, g ∈ l.pieces := fun g hg => by rw [hAB]; exact List.mem_append_right A hg
  have hleft : ∀ g ∈ A, g.Done received l.taken := fun g hg =>
    hpast.done g (by rw [hAB]; exact List.mem_append_left B hg) (by have hmem := hA.mem hg; omega)
  -- an element that is waiting, or in use, is not in front of `t`
  have hright : ∀ (k : Nat), (∀ r, received[k]? = some r → r.phase ≠ .done) → (∃ g ∈ l.pieces, g.elem = some k) →
      ∃ g ∈ B, g.elem = some k := by
    intro k huse ⟨g, hg, hk⟩
    rw [hAB] at hg
    rcases List.mem_append.mp hg with hg | hg
    · rcases hleft g hg with ⟨hnone, -⟩ | ⟨k', r, hk', hr, hphase⟩
      · simp [hnone] at hk
      · obtain rfl : k' = k := Option.some.inj (hk'.symm.trans hk)
        exact absurd hphase (huse r hr)
    · exact ⟨g, hg, hk⟩
  refine ⟨A, B, hAB, fun g hg => (hA.mem hg).2.1, ?_⟩
  have hroom := h.room
  have hlo := hpast.lo
  have hord := h.ordered
  rw [hAB] at hord
  have htaken := Past.le_taken h hpast hhi
  exact
    { h with
      ok := h.ok.congr rfl rfl
      tiled := hB
      room := by dsimp only; omega
      tail2 := rfl
      aligned := fun g hg => h.aligned g (hsub g hg)
      sizes := fun g hg => h.sizes g (hsub g hg)
      cutTaken := fun g hg => h.cutTaken g (hsub g hg)
      cutTail := fun g hg => h.cutTail g (hsub g hg)
      takenLo := htaken
      pieces := fun g hg => h.pieces g (hsub g hg)
      ordered := (List.pairwise_append.mp hord).2.1
      waiting := fun k hlen hlt => hright k (fun r hr => by
        rw [List.getElem?_eq_none hlen] at hr
        cases hr) (h.waiting k hlen hlt)
      inUse := fun k r hr hphase => hright k (fun r' hr' => by
        rw [hr, Option.some.injEq] at hr'
        exact hr' ▸ hphase) (h.inUse k r hr hphase) }

/-- A header is stored where the next piece is going to be. -/
theorem Around.header (h : Around rb sent received l) (e : SolrosElm) : Around (rb.storeElm rb.head e) sent received l := by
  refine { h with ok := h.ok.congr rfl rfl, pieces := fun g hg => ?_ }
  refine (h.pieces g hg).frame (h.eight hg).1 (fun x h1 h2 => storeElm_of_outside ?_) (fun _ _ => rfl) fun _ _ => ⟨rfl, id⟩
  rw [h.head]
  rcases h.away hg with hle | hle <;> omega

/-- `head` moves past a piece. -/
theorem Around.append (h : Around rb sent received l) (hasize : rb.alignMask + 1 ∣ asize) (hpos : 0 < asize)
    (hroom : l.head + asize + 9 ≤ l.tail2 + rb.size) (hsent : ∀ k, k < sent.length → sent'[k]? = sent[k]?)
    (hnew : ∀ k, sent.length ≤ k → k < sent'.length → o = some k) (ho : ∀ k, o = some k → sent.length ≤ k)
    (hpiece : RingPieceOk rb.buff rb.size sent' received l.taken ⟨l.head, asize, o⟩) :
    Around { rb with head := (l.head + asize) % rb.size } sent' received
      { l with head := l.head + asize, pieces := l.pieces ++ [⟨l.head, asize, o⟩] } := by
  have hlen : ∀ (k : Nat) (r : Dequeue), received[k]? = some r → k < sent.length := by
    intro k r hr
    obtain ⟨e, he, -⟩ := h.delivered k r hr
    exact (List.getElem?_eq_some_iff.mp he).1
  have hold : ∀ g ∈ l.pieces, ∀ k, g.elem = some k → k < sent.length := by
    intro g hg k hk
    cases h.pieces g hg with
    | tombstone hnone => simp [hnone] at hk
    | waiting k' e owner helem hpos hs =>
        rw [helem, Option.some.injEq] at hk
        exact hk ▸ (List.getElem?_eq_some_iff.mp hs).1
    | taken k' e r helem hpos hs hr =>
        rw [helem, Option.some.injEq] at hk
        exact hk ▸ hlen k' r hr
    | done k' r helem hpos hr =>
        rw [helem, Option.some.injEq] at hk
        exact hk ▸ hlen k' r hr
  have htakenHi := h.takenHi
  have htailLe := h.tailLe
  have hhi : l.taken ≤ l.head + asize := Nat.le_trans htakenHi (Nat.le_add_right _ _)
  have htailHi : l.tail ≤ l.head := Nat.le_trans htailLe htakenHi
  have hcut : ∀ {c : Nat}, c ≤ l.head → Between RingPiece.pos RingPiece.size l.pieces c →
      Between RingPiece.pos RingPiece.size (l.pieces ++ [⟨l.head, asize, o⟩]) c := by
    intro c hc hcut g hg
    rcases List.mem_append.mp hg with hg | hg
    · exact hcut g hg
    · rw [List.mem_singleton.mp hg]
      exact Or.inr hc
  refine ⟨h.ok.congr rfl rfl, tiles_append.mpr ⟨l.head, h.tiled, rfl, hpos, rfl⟩, hroom, rfl, h.tail, h.tail2, ?_, ?_, ?_,
    hcut htakenHi h.cutTaken, hcut htailHi h.cutTail, h.takenLo, hhi, htailLe, ?_, ?_, ?_, ?_, ?_⟩
  · have hsum := Nat.dvd_add h.headAligned hasize
    rwa [Nat.add_right_comm] at hsum
  · intro g hg
    rcases List.mem_append.mp hg with hg | hg
    · exact h.aligned g hg
    · rw [List.mem_singleton.mp hg]
      exact h.headAligned
  · intro g hg
    rcases List.mem_append.mp hg with hg | hg
    · exact h.sizes g hg
    · rw [List.mem_singleton.mp hg]
      exact hasize
  · intro g hg
    rcases List.mem_append.mp hg with hg | hg
    · exact (h.pieces g hg).frame (h.eight hg).1 (fun _ _ _ => rfl) (fun k hk => hsent k (hold g hg k hk)) fun _ _ => ⟨rfl, id⟩
    · rw [List.mem_singleton.mp hg]
      exact hpiece
  · refine List.pairwise_append.mpr ⟨h.ordered, List.pairwise_singleton _ _, fun g hg g' hg' k k' hk hk' => ?_⟩
    rw [List.mem_singleton.mp hg'] at hk'
    exact Nat.lt_of_lt_of_le (hold g hg k hk) (ho k' hk')
  · intro k hk hlt
    by_cases hin : k < sent.length
    · obtain ⟨g, hg, helem⟩ := h.waiting k hk hin
      exact ⟨g, List.mem_append_left _ hg, helem⟩
    · exact ⟨_, List.mem_append_right _ (List.mem_singleton_self _), hnew k (by omega) hlt⟩
  · intro k r hr hphase
    obtain ⟨g, hg, helem⟩ := h.inUse k r hr hphase
    exact ⟨g, List.mem_append_left _ hg, helem⟩
  · intro k r hr
    obtain ⟨e, he, hdel⟩ := h.delivered k r hr
    exact ⟨e, (hsent k (hlen k r hr)).trans he, hdel⟩

/-- The free space is what is left of the circle. -/
theorem Around.freeSpace (h : Around rb sent received l) : rb.freeSpaceSize + l.head + 9 = l.tail2 + rb.size := by
  have hle := h.tiled.le
  have hroom := h.room
  have hsmall := h.ok.small
  have hdist := mod_dist hle (show l.head < l.tail2 + rb.size by omega)
  have hnext : ¬l.tail2 % rb.size = (l.head % rb.size + 1) % rb.size := by
    intro heq
    rw [Nat.mod_add_mod] at heq
    have hsame := mod_unique (show l.tail2 ≤ l.head + 1 by omega) (by omega) heq
    omega
  have hlt := Nat.mod_lt l.tail2 h.size_pos
  have hlt' := Nat.mod_lt l.head h.size_pos
  unfold SolrosRing.freeSpaceSize
  rw [h.head, h.tail2]
  simp only [if_neg hnext]
  by_cases hbelow : l.tail2 % rb.size < l.head % rb.size
  · rw [if_pos hbelow, subU64_of_le (a := rb.size) (by omega) (by omega), subU64_of_le (by omega) (by omega)]
    omega
  · rw [if_neg hbelow]
    by_cases habove : l.tail2 % rb.size > l.head % rb.size
    · rw [if_pos habove, subU64_of_le (by omega) (by omega)]
      omega
    · rw [if_neg habove, subU64_of_le (by omega) (by omega)]
      omega

end Stores

end Parfs
