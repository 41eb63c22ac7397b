/-
Calls that wait for their requests.

What a call has still to do is judged by the sockets that may owe it something: a request opens
its socket, a wait closes one, and a return wants them all closed.  Of every call and socket as
many requests are issued as are completed or are still on their way, so a wait that is over says
that nothing of the socket is on its way, and while the call does nothing else that stays so.
-/
import Parfs.Delegation
import Parfs.Proofs.FileCopy

namespace Parfs

open Lib

/-! ### What a call has to do -/

/-- From sockets `opened` on, the call waits for all it is owed before it returns, if it returns
what `P` says. -/
def Settles (P : Int → Prop) : (Nat → Prop) → List DeleAction → Prop
  | _, [] => True
  | opened, .send r :: todo => Settles P (fun i => opened i ∨ i = r.socket) todo
  | opened, .await socket :: todo => Settles P (fun i => opened i ∧ i ≠ socket) todo
  | opened, .ret n :: todo => (P n → ∀ i, ¬ opened i) ∧ todo = []

/-- Neither of these returns. -/
inductive DeleAction.Within : DeleAction → Prop where
  | send (r : DeleRequest) (h : r.socket < novaMaxSocket) : Within (.send r)
  | await (socket : Nat) : Within (.await socket)

section

variable {P : Int → Prop} {o o' : Nat → Prop} {todo rest : List DeleAction} {n : Int}

theorem Settles.anti (h : Settles P o todo) (hle : ∀ i, o' i → o i) : Settles P o' todo := by
  induction todo generalizing o o' with
  | nil => trivial
  | cons a todo ih =>
      cases a with
      | send r => exact ih h fun i hi => hi.imp_left (hle i)
      | await socket => exact ih h fun i hi => ⟨hle i hi.1, hi.2⟩
      | ret n => exact ⟨fun hn i hi => h.1 hn i (hle i hi), h.2⟩

theorem settles_within (hin : ∀ a ∈ todo, a.Within) (ho : ∀ i, o i → i < novaMaxSocket)
    (hrest : Settles P (· < novaMaxSocket) rest) : Settles P o (todo ++ rest) := by
  induction todo generalizing o with
  | nil => exact hrest.anti ho
  | cons a todo ih =>
      have hin' := fun a ha => hin a (List.mem_cons_of_mem _ ha)
      cases hin a List.mem_cons_self with
      | send r hr =>
          refine ih hin' fun i hi => ?_
          rcases hi with hi | rfl
          · exact ho i hi
          · exact hr
      | await socket => exact ih hin' fun i hi => ho i hi.1

theorem settles_awaits (sockets : List Nat) (hrest : Settles P (fun i => o i ∧ i ∉ sockets) rest) :
    Settles P o (sockets.map .await ++ rest) := by
  induction sockets generalizing o with
  | nil => exact hrest.anti fun i hi => ⟨hi, List.not_mem_nil⟩
  | cons socket sockets ih =>
      refine ih (hrest.anti fun i hi => ⟨hi.1.1, fun hmem => ?_⟩)
      exact (List.mem_cons.mp hmem).elim hi.1.2 hi.2

/-- `nova_complete_delegation` closes all sockets. -/
theorem settles_complete : Settles P (· < novaMaxSocket) (novaCompleteDelegation ++ [.ret n]) :=
  settles_awaits _ ⟨fun _ i hi => hi.2 (List.mem_range.mpr hi.1), rfl⟩

end

/-! ### What a call has not got yet -/

/-- The requests of a call for a socket. -/
def Owed (call socket : Nat) (r : DeleRequest) : Prop := r.call = call ∧ r.socket = socket

instance (call socket : Nat) : DecidablePred (Owed call socket) := fun _ => inferInstanceAs (Decidable (_ ∧ _))

theorem countP_owed (call socket : Nat) (r : DeleRequest) :
    Multiset.countP (Owed call socket) {r} = if Owed call socket r then 1 else 0 := by
  rw [← Multiset.cons_zero, Multiset.countP_cons, Multiset.countP_zero, zero_add]

def requestsOf (todo : List DeleAction) : List DeleRequest :=
  todo.filterMap fun a => match a with
    | .send r => some r
    | _ => none

/-- What is so of a call all the time. -/
structure CallerInv (P : Int → Prop) (cfg : DeleConfig) (pool : Pool (Nat × Nat) DeleRequest (List AgentMove)) (call : Nat)
    (x : Caller) : Prop where
  own : ∀ r, .send r ∈ x.todo → r.call = call
  /-- What it has sent is what it had to. -/
  sent : requestsOf (x.op.actions cfg call) = x.issued ++ requestsOf x.todo
  /-- Its requests are where they are. -/
  jobs : (x.issued : Multiset DeleRequest) = pool.jobs.filter fun r => r.call = call
  count : ∀ i, x.issuedCnt i = x.completedCnt i + pool.left.countP (Owed call i)
  settles : ∃ o, Settles P o x.todo ∧ ∀ i, ¬ o i → x.issuedCnt i = x.completedCnt i
  returned : ∀ n, x.returned = some n → x.todo = [] ∧ (P n → ∀ i, x.issuedCnt i = x.completedCnt i)

/-- And of all calls. -/
structure DeleInv (P : Int → Prop) (cfg : DeleConfig) (s : DeleState) : Prop where
  absent : ∀ call, s.calls call = none → (s.pool.jobs.filter fun r => r.call = call) = 0
  callers : ∀ call x, s.calls call = some x → CallerInv P cfg s.pool call x

/-- A call that waits before it returns what `P` says, and has requests of its own only. -/
structure DeleOp.Waits (P : Int → Prop) (cfg : DeleConfig) (call : Nat) (op : DeleOp) : Prop where
  own : ∀ r, .send r ∈ op.actions cfg call → r.call = call
  settles : Settles P (fun _ => False) (op.actions cfg call)

section

variable {P : Int → Prop} {cfg : DeleConfig} {s s' : DeleState} {x x' : Caller} {call : Nat} {op : DeleOp}
  {pool pool' : Pool (Nat × Nat) DeleRequest (List AgentMove)} {r : DeleRequest}

theorem DeleInv.init : DeleInv P cfg .init where
  absent := fun _ _ => rfl
  callers := nofun

/-- A pool that is the same for the call. -/
theorem CallerInv.congr (h : CallerInv P cfg pool call x)
    (hjobs : (pool'.jobs.filter fun r => r.call = call) = pool.jobs.filter fun r => r.call = call)
    (hleft : ∀ i, pool'.left.countP (Owed call i) = pool.left.countP (Owed call i)) : CallerInv P cfg pool' call x where
  own := h.own
  sent := h.sent
  jobs := h.jobs.trans hjobs.symm
  count := fun i => by rw [hleft i]; exact h.count i
  settles := h.settles
  returned := h.returned

/-- What is put by another call. -/
theorem CallerInv.put_other (h : CallerInv P cfg pool call x) {q : Nat × Nat} (hr : r.call ≠ call) :
    CallerInv P cfg (pool.put q r) call x := by
  refine h.congr ?_ fun i => ?_
  · rw [Pool.jobs_put, Multiset.filter_add, Multiset.filter_singleton, if_neg hr]
    exact add_zero _
  · rw [Pool.left_put, Multiset.countP_add, countP_owed, if_neg fun hc => hr hc.1]
    rfl

/-- A request is sent. -/
theorem CallerInv.send (h : CallerInv P cfg pool call x) {q : Nat × Nat} {todo : List DeleAction} (htodo : x.todo = .send r :: todo) :
    CallerInv P cfg (pool.put q r) call
      { x with
        todo := todo
        issuedCnt := Function.update x.issuedCnt r.socket (x.issuedCnt r.socket + 1)
        issued := x.issued ++ [r] } := by
  have hr : r.call = call := h.own r (by rw [htodo]; exact List.mem_cons_self)
  refine
    { own := fun r' hr' => h.own r' (by rw [htodo]; exact List.mem_cons_of_mem _ hr')
      sent := ?_
      jobs := ?_
      count := fun i => ?_
      settles := ?_
      returned := fun n hn => ?_ }
  · rw [h.sent, htodo, List.append_assoc]
    rfl
  · rw [← Multiset.coe_add, h.jobs, Pool.jobs_put, Multiset.filter_add, Multiset.filter_singleton, if_pos hr]
    rfl
  · have hcount := h.count i
    show Function.update x.issuedCnt r.socket _ i = x.completedCnt i + _
    rw [Pool.left_put, Multiset.countP_add, countP_owed]
    by_cases hi : i = r.socket
    · rw [if_pos ⟨hr, hi.symm⟩, hi, Function.update_self, ← hi, hcount]
      rfl
    · rw [if_neg fun hc => hi hc.2.symm, Function.update_of_ne hi]
      exact hcount
  · obtain ⟨o, ho, hclosed⟩ := h.settles
    rw [htodo] at ho
    refine ⟨_, ho, fun i hi => ?_⟩
    obtain ⟨hoi, hne⟩ := not_or.mp hi
    show Function.update x.issuedCnt r.socket _ i = _
    rw [Function.update_of_ne hne]
    exact hclosed i hoi
  · have hnil := (h.returned n hn).1
    rw [htodo] at hnil
    cases hnil

/-- A wait is over. -/
theorem CallerInv.await (h : CallerInv P cfg pool call x) {socket : Nat} {todo : List DeleAction}
    (htodo : x.todo = .await socket :: todo) (heq : x.issuedCnt socket = x.completedCnt socket) :
    CallerInv P cfg pool call { x with todo := todo } := by
  refine
    { own := fun r' hr' => h.own r' (by rw [htodo]; exact List.mem_cons_of_mem _ hr')
      sent := by rw [h.sent, htodo]; rfl
      jobs := h.jobs
      count := h.count
      settles := ?_
      returned := fun n hn => ?_ }
  · obtain ⟨o, ho, hclosed⟩ := h.settles
    rw [htodo] at ho
    refine ⟨_, ho, fun i hi => ?_⟩
    by_cases hsocket : i = socket
    · rw [hsocket]
      exact heq
    · exact hclosed i fun hoi => hi ⟨hoi, hsocket⟩
  · have hnil := (h.returned n hn).1
    rw [htodo] at hnil
    cases hnil

theorem CallerInv.ret (h : CallerInv P cfg pool call x) {n : Int} {todo : List DeleAction} (htodo : x.todo = .ret n :: todo) :
    CallerInv P cfg pool call { x with todo := todo, returned := some n } := by
  obtain ⟨o, ho, hclosed⟩ := h.settles
  rw [htodo] at ho
  obtain ⟨hall, rfl⟩ := ho
  refine
    { own := nofun
      sent := by rw [h.sent, htodo]; rfl
      jobs := h.jobs
      count := h.count
      settles := ⟨o, trivial, hclosed⟩
      returned := fun m hm => ⟨rfl, fun hP i => ?_⟩ }
  cases hm
  exact hclosed i (hall hP i)

/-- The caller's own step. -/
theorem CallerInv.goOn (h : CallerInv P cfg pool call x) {thread : Nat} (hstep : x.goOn cfg thread pool = some (pool', x')) :
    CallerInv P cfg pool' call x' ∧ (pool' = pool ∨ ∃ q r, r.call = call ∧ pool' = pool.put q r) := by
  unfold Caller.goOn at hstep
  split at hstep
  · cases hstep
  · rename_i r todo htodo
    split at hstep
    · cases hstep
      exact ⟨h.send htodo, Or.inr ⟨_, r, h.own r (by rw [htodo]; exact List.mem_cons_self), rfl⟩⟩
    · cases hstep
  · rename_i socket todo htodo
    split at hstep
    · rename_i heq
      cases hstep
      exact ⟨h.await htodo heq, Or.inl rfl⟩
    · cases hstep
  · rename_i n todo htodo
    cases hstep
    exact ⟨h.ret htodo, Or.inl rfl⟩

/-- A request of the call is served. -/
theorem CallerInv.notify (h : CallerInv P cfg pool r.call x) (hjobs : pool'.jobs = pool.jobs) (hleft : pool.left = pool'.left + {r}) :
    CallerInv P cfg pool' r.call (x.notify r.socket) := by
  have hcount : ∀ i, pool.left.countP (Owed r.call i) =
      pool'.left.countP (Owed r.call i) + if i = r.socket then 1 else 0 := by
    intro i
    rw [hleft, Multiset.countP_add, countP_owed]
    by_cases hi : i = r.socket
    · rw [if_pos hi, if_pos ⟨rfl, hi.symm⟩]
    · rw [if_neg hi, if_neg fun hc => hi hc.2.symm]
  have hnotify : ∀ i, (x.notify r.socket).completedCnt i = x.completedCnt i + if i = r.socket then 1 else 0 := by
    intro i
    show Function.update x.completedCnt r.socket _ i = _
    by_cases hi : i = r.socket
    · rw [hi, Function.update_self, if_pos rfl]
    · rw [Function.update_of_ne hi, if_neg hi]
      rfl
  -- the socket of a request that is on its way is open
  have hopen : x.issuedCnt r.socket ≠ x.completedCnt r.socket := by
    have h1 := h.count r.socket
    have h2 := hcount r.socket
    rw [if_pos rfl] at h2
    omega
  have hsame : ∀ i, x.issuedCnt i = x.completedCnt i → x.issuedCnt i = (x.notify r.socket).completedCnt i := by
    intro i hi
    have hne : i ≠ r.socket := by
      rintro rfl
      exact hopen hi
    rw [hnotify, if_neg hne]
    exact hi
  obtain ⟨o, ho, hclosed⟩ := h.settles
  exact
    { own := h.own
      sent := h.sent
      jobs := by rw [hjobs]; exact h.jobs
      count := fun i => by
        have h1 := h.count i
        have h2 := hcount i
        rw [hnotify]
        show x.issuedCnt i = _
        omega
      settles := ⟨o, ho, fun i hi => hsame i (hclosed i hi)⟩
      returned := fun n hn => ⟨(h.returned n hn).1, fun hP i => hsame i ((h.returned n hn).2 hP i)⟩ }

theorem DeleInv.start (h : DeleInv P cfg s) (hop : op.Waits P cfg call) (hstep : DeleStep cfg s (.start call op) s') :
    DeleInv P cfg s' := by
  unfold DeleStep deleStep at hstep
  dsimp only at hstep
  split at hstep
  · cases hstep
  · rename_i hnone
    obtain rfl := Option.some.inj hstep
    have hjobs := h.absent call hnone
    refine ⟨fun k hk => ?_, fun k x hx => ?_⟩
    · by_cases hcall : k = call
      · rw [hcall]
        exact hjobs
      · dsimp only at hk
        rw [Function.update_of_ne hcall] at hk
        exact h.absent k hk
    · dsimp only at hx
      by_cases hcall : k = call
      · subst hcall
        rw [Function.update_self] at hx
        obtain rfl := Option.some.inj hx
        have hleft : ∀ i, s.pool.left.countP (Owed k i) = 0 := by
          intro i
          refine Multiset.countP_eq_zero.mpr fun r hr howed => ?_
          have hmem : r ∈ s.pool.jobs.filter fun r => r.call = k :=
            Multiset.mem_filter.mpr ⟨Multiset.mem_add.mpr (Or.inl hr), howed.1⟩
          rw [hjobs] at hmem
          exact Multiset.notMem_zero r hmem
        exact
          { own := hop.own
            sent := rfl
            jobs := hjobs.symm
            count := fun i => by rw [hleft i]
            settles := ⟨_, hop.settles, fun _ _ => rfl⟩
            returned := nofun }
      · rw [Function.update_of_ne hcall] at hx
        exact h.callers k x hx

theorem DeleInv.goOn {thread : Nat} (h : DeleInv P cfg s) (hstep : DeleStep cfg s (.goOn call thread) s') : DeleInv P cfg s' := by
  obtain ⟨x, hx, hstep⟩ := Option.bind_eq_some_iff.mp hstep
  obtain ⟨⟨pool, x'⟩, hgo, rfl⟩ := Option.map_eq_some_iff.mp hstep
  obtain ⟨hinv, hpool⟩ := (h.callers call x hx).goOn hgo
  refine ⟨fun k hk => ?_, fun k y hy => ?_⟩
  · dsimp only at hk ⊢
    have hcall : k ≠ call := by
      rintro rfl
      rw [Function.update_self] at hk
      cases hk
    rw [Function.update_of_ne hcall] at hk
    rcases hpool with rfl | ⟨q, r, hr, rfl⟩
    · exact h.absent k hk
    · rw [Pool.jobs_put, Multiset.filter_add, h.absent k hk, Multiset.filter_singleton,
        if_neg fun hc => hcall (hc.symm.trans hr)]
      rfl
  · dsimp only at hy ⊢
    by_cases hcall : k = call
    · subst hcall
      rw [Function.update_self] at hy
      obtain rfl := Option.some.inj hy
      exact hinv
    · rw [Function.update_of_ne hcall] at hy
      rcases hpool with rfl | ⟨q, r, hr, rfl⟩
      · exact h.callers k y hy
      · exact (h.callers k y hy).put_other fun hc => hcall (hc.symm.trans hr)

theorem DeleInv.recv {socket thread : Nat} (h : DeleInv P cfg s) (hstep : DeleStep cfg s (.recv socket thread) s') :
    DeleInv P cfg s' := by
  obtain ⟨pool, hpool, rfl⟩ := Option.map_eq_some_iff.mp hstep
  refine ⟨fun k hk => ?_, fun k y hy => ?_⟩
  · show (pool.jobs.filter _) = 0
    rw [Pool.jobs_take hpool]
    exact h.absent k hk
  · refine (h.callers k y hy).congr ?_ fun i => ?_
    · rw [Pool.jobs_take hpool]
    · rw [(Pool.take_spec hpool).1]

theorem DeleInv.serve {socket thread : Nat} {env : AgentEnv} (h : DeleInv P cfg s)
    (hstep : DeleStep cfg s (.serve socket thread env) s') : DeleInv P cfg s' := by
  obtain ⟨⟨r, pool⟩, hpool, rfl⟩ := Option.map_eq_some_iff.mp hstep
  obtain ⟨hleft, -⟩ := Pool.finish_spec hpool
  have hjobs := Pool.jobs_finish hpool
  refine ⟨fun k hk => ?_, fun k y hy => ?_⟩
  · dsimp only at hk ⊢
    rw [hjobs]
    refine h.absent k ?_
    by_cases hcall : k = r.call
    · subst hcall
      rw [Function.update_self] at hk
      exact Option.map_eq_none_iff.mp hk
    · rwa [Function.update_of_ne hcall] at hk
  · dsimp only at hy ⊢
    by_cases hcall : k = r.call
    · subst hcall
      rw [Function.update_self] at hy
      obtain ⟨x, hx, rfl⟩ := Option.map_eq_some_iff.mp hy
      exact (h.callers _ x hx).notify hjobs hleft
    · rw [Function.update_of_ne hcall] at hy
      refine (h.callers k y hy).congr (by rw [hjobs]) fun i => ?_
      rw [hleft, Multiset.countP_add, countP_owed, if_neg fun hc => hcall hc.1.symm]
      rfl

theorem DeleInv.step {a : DeleAct} (h : DeleInv P cfg s) (hstart : ∀ call op, a = .start call op → op.Waits P cfg call)
    (hstep : DeleStep cfg s a s') : DeleInv P cfg s' := by
  cases a with
  | start call op => exact h.start (hstart call op rfl) hstep
  | goOn call thread => exact h.goOn hstep
  | recv socket thread => exact h.recv hstep
  | serve socket thread env => exact h.serve hstep

/-- Nothing of a call is on its way once it has returned what `P` says. -/
theorem DeleInv.returned (h : DeleInv P cfg s) (hx : s.calls call = some x) {n : Int} (hret : x.returned = some n) (hP : P n) :
    (∀ r ∈ s.pool.left, r.call ≠ call) ∧ (x.issued : Multiset DeleRequest) =
      (s.pool.done.map Prod.fst : Multiset DeleRequest).filter fun r => r.call = call := by
  have hinv := h.callers call x hx
  have heq := (hinv.returned n hret).2 hP
  have hnone : ∀ r ∈ s.pool.left, r.call ≠ call := by
    intro r hr hcall
    have hcount := hinv.count r.socket
    have hpos : 0 < s.pool.left.countP (Owed call r.socket) := Multiset.countP_pos.mpr ⟨r, hr, hcall, rfl⟩
    have := heq r.socket
    omega
  refine ⟨hnone, ?_⟩
  rw [hinv.jobs, Pool.jobs, Multiset.filter_add, Multiset.filter_eq_nil.mpr hnone]
  exact zero_add _

end

end Parfs
