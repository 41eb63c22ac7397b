/-
What agents have really copied.

An agent counts a request as completed however it went, so the byte count of a call is as good as
the agents' luck: a page of the user's that is gone when its agent looks for it leaves nothing
copied and nobody told.  Where no agent fails, all that a call counts is copied, by the caller or by
an agent: the tasks of a read are the pages of the buffer, glued together where they meet, and
the fragments of a write follow each other to its end.
-/
import Parfs.Proofs.DelegationCalls

namespace Parfs

open Lib

/-! ### An agent that does not fail -/

/-- The memory of some tasks, one after another. -/
def taskAddr : List AgentTask → Nat → Option Nat
  | [], _ => none
  | t :: ts, j => if j < t.size then some (t.kuaddr + j) else taskAddr ts (j - t.size)

def tasksSize (tasks : List AgentTask) : Nat := (tasks.map AgentTask.size).sum

section

variable {env : AgentEnv} {tasks tasks' : List AgentTask} {kuaddr size uaddr bytes i j left kaddr : Nat} {r : DeleRequest}

theorem taskAddr_append_left (h : j < tasksSize tasks) : taskAddr (tasks ++ tasks') j = taskAddr tasks j := by
  induction tasks generalizing j with
  | nil => exact absurd h (Nat.not_lt_zero _)
  | cons t ts ih =>
      unfold tasksSize at h
      rw [List.map_cons, List.sum_cons] at h
      rw [List.cons_append, taskAddr, taskAddr]
      by_cases hj : j < t.size
      · rw [if_pos hj, if_pos hj]
      · rw [if_neg hj, if_neg hj]
        refine ih ?_
        unfold tasksSize
        omega

theorem taskAddr_append_right : taskAddr (tasks ++ tasks') (tasksSize tasks + j) = taskAddr tasks' j := by
  induction tasks with
  | nil => exact congrArg (taskAddr tasks') (Nat.zero_add j)
  | cons t ts ih =>
      unfold tasksSize at ih ⊢
      rw [List.map_cons, List.sum_cons, List.cons_append, taskAddr, if_neg (by omega)]
      rw [← ih]
      congr 1
      omega

theorem tasksSize_append : tasksSize (tasks ++ tasks') = tasksSize tasks + tasksSize tasks' := by
  unfold tasksSize
  rw [List.map_append, List.sum_append]

/-- Memory is added to the tasks. -/
theorem addTask_spec (h : addTask tasks kuaddr size = some tasks') :
    tasksSize tasks' = tasksSize tasks + size ∧ tasks'.length ≤ tasks.length + 1 ∧
      ∀ j < tasksSize tasks + size, taskAddr tasks' j =
        if j < tasksSize tasks then taskAddr tasks j else some (kuaddr + (j - tasksSize tasks)) := by
  have hnew : ∀ j < tasksSize tasks + size, taskAddr (tasks ++ [⟨kuaddr, size⟩]) j =
      if j < tasksSize tasks then taskAddr tasks j else some (kuaddr + (j - tasksSize tasks)) := by
    intro j hj
    by_cases hlt : j < tasksSize tasks
    · rw [if_pos hlt, taskAddr_append_left hlt]
    · obtain ⟨k, rfl⟩ := Nat.exists_eq_add_of_le (Nat.le_of_not_lt hlt)
      rw [if_neg hlt, taskAddr_append_right, taskAddr, if_pos (show k < size by omega), Nat.add_sub_cancel_left]
  unfold addTask at h
  split at h
  · rename_i t hlast
    split at h
    · split at h
      · cases h
      · cases h
        exact ⟨tasksSize_append, (List.length_append).le, hnew⟩
    · rename_i hmeets
      cases h
      -- the last task goes on
      obtain ⟨before, rfl⟩ : ∃ before, tasks = before ++ [t] :=
        ⟨_, (List.dropLast_append_getLast? t hlast).symm⟩
      have hmeets : kuaddr = t.kuaddr + t.size := not_not.mp hmeets
      rw [List.dropLast_concat, tasksSize_append, tasksSize_append]
      have hone : ∀ t : AgentTask, tasksSize [t] = t.size := fun t => Nat.add_zero _
      rw [hone, hone]
      refine ⟨by dsimp only; omega, by simp, fun j hj => ?_⟩
      by_cases hbefore : j < tasksSize before
      · rw [taskAddr_append_left hbefore, if_pos (by omega), taskAddr_append_left hbefore]
      · obtain ⟨k, rfl⟩ := Nat.exists_eq_add_of_le (Nat.le_of_not_lt hbefore)
        rw [taskAddr_append_right, taskAddr, if_pos (show k < t.size + size by omega)]
        by_cases hold : k < t.size
        · rw [if_pos (by omega), taskAddr_append_right, taskAddr, if_pos hold]
        · rw [if_neg (by omega), hmeets]
          dsimp only
          congr 1
          omega
  · rename_i hnone
    obtain rfl := List.getLast?_eq_none_iff.mp hnone
    cases h
    exact ⟨@tasksSize_append [] _, le_rfl, hnew⟩

/-- There is room for a task. -/
theorem addTask_room (h : tasks.length < novaAgentTaskMaxSize) : ∃ tasks', addTask tasks kuaddr size = some tasks' := by
  unfold addTask
  split
  · split
    · rw [if_neg (by omega)]
      exact ⟨_, rfl⟩
    · exact ⟨_, rfl⟩
  · exact ⟨_, rfl⟩

/-- Inside a page that is present. -/
theorem userVirtAddrToPhyAddr_page (h : userVirtAddrToPhyAddr env i ≠ 0) (hj : i % 4096 + j < 4096) :
    userVirtAddrToPhyAddr env (i + j) = userVirtAddrToPhyAddr env i + j := by
  unfold userVirtAddrToPhyAddr at *
  rw [show (i + j) / 4096 = i / 4096 by omega]
  split at h
  · exact absurd rfl h
  · omega

/-- The tasks are those of the pages so far. -/
theorem createTasksLoop_spec {fuel : Nat} (hpresent : ∀ x, uaddr ≤ x → x < uaddr + bytes → userVirtAddrToPhyAddr env x ≠ 0)
    (hfuel : i < uaddr + bytes → (uaddr + bytes - 1) / 4096 - i / 4096 < fuel)
    (hroom : tasks.length + fuel ≤ novaAgentTaskMaxSize) (hlo : uaddr ≤ i) (hleft : i + left = uaddr + bytes)
    (hsize : tasksSize tasks = i - uaddr)
    (haddr : ∀ j < i - uaddr, taskAddr tasks j = some (userVirtAddrToPhyAddr env (uaddr + j))) :
    ∃ tasks', createTasksLoop env (uaddr + bytes) fuel i left tasks = some tasks' ∧
      ∀ j < bytes, taskAddr tasks' j = some (userVirtAddrToPhyAddr env (uaddr + j)) := by
  induction fuel generalizing i left tasks with
  | zero =>
      have hend : ¬ i < uaddr + bytes := fun hlt => absurd (hfuel hlt) (Nat.not_lt_zero _)
      exact ⟨tasks, rfl, fun j hj => haddr j (by omega)⟩
  | succ fuel ih =>
      unfold createTasksLoop
      by_cases hmore : i < uaddr + bytes
      · have hphys := hpresent i hlo hmore
        have hlast := hfuel hmore
        obtain ⟨size, hsz⟩ : ∃ size, size = min (4096 - i % 4096) left := ⟨_, rfl⟩
        obtain ⟨tasks', htasks'⟩ : ∃ tasks', addTask tasks (userVirtAddrToPhyAddr env i) size = some tasks' :=
          addTask_room (by omega)
        obtain ⟨hsum, hlen, hspec⟩ := addTask_spec htasks'
        rw [if_pos hmore, if_neg hphys, ← hsz]
        dsimp only
        rw [htasks']
        refine ih (fun hmore' => ?_) (by omega) (by omega) (by omega) (by omega) fun j hj => ?_
        · have hpage : i % 4096 + size = 4096 := by omega
          omega
        · rw [hspec j (by omega), hsize]
          by_cases hj' : j < i - uaddr
          · rw [if_pos hj']
            exact haddr j hj'
          · rw [if_neg hj', ← userVirtAddrToPhyAddr_page hphys (by omega)]
            congr 2
            omega
      · rw [if_neg hmore]
        exact ⟨tasks, rfl, fun j hj => haddr j (by omega)⟩

/-- **Tasks of a buffer whose pages are all present**, when it is not too many of them. -/
theorem createAgentTasks_spec (hpresent : ∀ x, uaddr ≤ x → x < uaddr + bytes → userVirtAddrToPhyAddr env x ≠ 0)
    (hbytes : bytes ≤ 40960) : ∃ tasks, createAgentTasks env uaddr bytes = some tasks ∧
      ∀ j < bytes, taskAddr tasks j = some (userVirtAddrToPhyAddr env (uaddr + j)) := by
  unfold createAgentTasks
  refine createTasksLoop_spec hpresent (fun _ => by omega) ?_ le_rfl rfl (Nat.sub_self _).symm fun j hj => by omega
  unfold novaAgentTaskMaxSize
  rw [List.length_nil]
  omega

/-- A byte of the tasks is moved. -/
theorem readMoves_byte {a : Nat} (h : taskAddr tasks j = some a) : ∃ m ∈ readMoves false kaddr tasks, ∃ b,
    m.src = some b ∧ b ≤ kaddr + j ∧ kaddr + j < b + m.size ∧ m.dst + (kaddr + j - b) = a := by
  induction tasks generalizing kaddr j with
  | nil => cases h
  | cons t ts ih =>
      rw [taskAddr] at h
      rw [readMoves, if_neg Bool.false_ne_true]
      by_cases hj : j < t.size
      · rw [if_pos hj] at h
        cases h
        refine ⟨_, List.mem_cons_self, kaddr, rfl, by omega, ?_, ?_⟩
        · show kaddr + j < kaddr + t.size
          omega
        · show t.kuaddr + (kaddr + j - kaddr) = t.kuaddr + j
          omega
      · rw [if_neg hj] at h
        obtain ⟨m, hm, b, hsrc, hlo, hhi, hdst⟩ := ih h
        have hplace : kaddr + t.size + (j - t.size) = kaddr + j := by omega
        rw [hplace] at hlo hhi hdst
        exact ⟨m, List.mem_cons_of_mem _ hm, b, hsrc, hlo, hhi, hdst⟩

/-- A byte of the fragments is moved, when nothing is left of them. -/
theorem writeFrags_byte {frag : Nat} (hleft : ∀ i, env.left i = 0) (hfrag : i + novaAgentFragSize * frag ≤ r.bytes)
    (hlo : i ≤ j) (hhi : j < r.bytes) : ∃ m ∈ writeFrags env r frag i, ∃ b,
      m.src = some b ∧ b ≤ r.uaddr + j ∧ r.uaddr + j < b + m.size ∧ m.dst + (r.uaddr + j - b) = r.kaddr + j := by
  have hzero : ∀ i size, memcpyToPmemAvxNocache env r i size = 0 := by
    intro i size
    unfold memcpyToPmemAvxNocache
    rw [hleft, Nat.zero_min, ite_self]
  induction frag generalizing i with
  | zero =>
      unfold writeFrags
      rw [if_pos (by omega), hzero]
      refine ⟨_, List.mem_singleton_self _, r.uaddr + i, rfl, by omega, ?_, ?_⟩
      · show r.uaddr + j < r.uaddr + i + (r.bytes - i - 0)
        omega
      · show r.kaddr + i + (r.uaddr + j - (r.uaddr + i)) = r.kaddr + j
        omega
  | succ frag ih =>
      unfold writeFrags
      dsimp only
      rw [hzero, if_neg (by simp)]
      by_cases hj : j < i + novaAgentFragSize
      · refine ⟨_, List.mem_cons_self, r.uaddr + i, rfl, by omega, ?_, ?_⟩
        · show r.uaddr + j < r.uaddr + i + (novaAgentFragSize - 0)
          omega
        · show r.kaddr + i + (r.uaddr + j - (r.uaddr + i)) = r.kaddr + j
          omega
      · have hfit : i + novaAgentFragSize + novaAgentFragSize * frag ≤ r.bytes := by
          rw [Nat.mul_succ] at hfrag
          omega
        obtain ⟨m, hm, hin⟩ := ih hfit (Nat.le_of_not_lt hj)
        exact ⟨m, List.mem_cons_of_mem _ hm, hin⟩

end

/-! ### What a call counts -/

/-- The agent, as it found things, copied a byte of the request. -/
def Copied (env : AgentEnv) (r : DeleRequest) (j : Nat) : Prop :=
  match r.type with
  | .read => ∃ m ∈ doReadRequest env r, ∃ b, m.src = some b ∧ b ≤ r.kaddr + j ∧ r.kaddr + j < b + m.size ∧
      m.dst + (r.kaddr + j - b) = userVirtAddrToPhyAddr env (r.uaddr + j)
  | .write => ∃ m ∈ doWriteRequest env r, ∃ b, m.src = some b ∧ b ≤ r.uaddr + j ∧ r.uaddr + j < b + m.size ∧
      m.dst + (r.uaddr + j - b) = r.kaddr + j

/-- Bytes of the user's that a call moves: itself, or with a request. -/
structure Piece where
  start : Nat
  len : Nat
  request : Option DeleRequest
  deriving DecidableEq

def Transfer.piece (cfg : DeleConfig) (call buf : Nat) (t : Transfer) : Piece :=
  ⟨t.buf, t.num - t.left, if t.delegated then some (t.request cfg call buf) else none⟩

def NvmmWrite.piece (cfg : DeleConfig) (call : Nat) (g : CopyConfig) (ubuf : Nat) (v : NvmmWrite) : Option Piece :=
  match v.src with
  | .user off => some ⟨off, v.len, if v.dele then some (v.request cfg call g ubuf) else none⟩
  | _ => none

def DeleOp.pieces (cfg : DeleConfig) (call : Nat) : DeleOp → List Piece
  | .read buf f c =>
    match doDaxMappingRead f c with
    | .ok r => r.transfers.map (Transfer.piece cfg call buf)
    | .error _ => []
  | .write ubuf mode f c g early ts =>
    match early with
    | some _ => []
    | none =>
      ((turnsCopies mode c g (c.start f) ⟨[], false, false⟩ ts).flatMap Copies.writes).filterMap
        (NvmmWrite.piece cfg call g ubuf)

/-- A byte that the call counts has been moved. -/
def Transferred (cfg : DeleConfig) (s : DeleState) (call : Nat) (op : DeleOp) (k : Nat) : Prop :=
  ∃ p ∈ op.pieces cfg call, p.start ≤ k ∧ k < p.start + p.len ∧
    ∀ r, p.request = some r → ∃ env, (r, agentServe env r) ∈ s.pool.done ∧ Copied env r (k - p.start)

/-- The agent finds the user's pages, or copies what it is to copy. -/
def AgentEnv.Serves (env : AgentEnv) (r : DeleRequest) : Prop :=
  match r.type with
  | .read => ∀ x, r.uaddr ≤ x → x < r.uaddr + r.bytes → userVirtAddrToPhyAddr env x ≠ 0
  | .write => ∀ i, env.left i = 0

/-- Whoever serves a request can. -/
def DeleAct.Serves (s : DeleState) : DeleAct → Prop
  | .serve socket thread env =>
    ∀ x, (s.pool.working.find? fun x => x.1 = (socket, thread)) = some x → env.Serves x.2
  | _ => True

section

variable {cfg : DeleConfig} {s s' : DeleState} {x : Caller} {call k : Nat} {op : DeleOp} {env : AgentEnv} {r : DeleRequest}
  {g : CopyConfig} {ubuf buf : Nat}

/-- What was served was served well. -/
def ServedWell (s : DeleState) : Prop := ∀ d ∈ s.pool.done, ∃ env : AgentEnv, env.Serves d.1 ∧ d.2 = agentServe env d.1

theorem ServedWell.step {a : DeleAct} (h : ServedWell s) (hserves : a.Serves s) (hstep : DeleStep cfg s a s') :
    ServedWell s' := by
  cases a with
  | start call op =>
      unfold DeleStep deleStep at hstep
      dsimp only at hstep
      split at hstep
      · cases hstep
      · obtain rfl := Option.some.inj hstep
        exact h
  | goOn call thread =>
      obtain ⟨x, hx, hstep⟩ := Option.bind_eq_some_iff.mp hstep
      obtain ⟨⟨pool, x'⟩, hgo, rfl⟩ := Option.map_eq_some_iff.mp hstep
      have hdone : pool.done = s.pool.done := by
        unfold Caller.goOn at hgo
        split at hgo
        · cases hgo
        · split at hgo
          · cases hgo
            rfl
          · cases hgo
        · split at hgo
          · cases hgo
            rfl
          · cases hgo
        · cases hgo
          rfl
      intro d hd
      exact h d (hdone ▸ hd)
  | recv socket thread =>
      obtain ⟨pool, hpool, rfl⟩ := Option.map_eq_some_iff.mp hstep
      intro d hd
      exact h d ((Pool.take_spec hpool).2 ▸ hd)
  | serve socket thread env =>
      obtain ⟨⟨r, pool⟩, hpool, rfl⟩ := Option.map_eq_some_iff.mp hstep
      obtain ⟨y, hy, heq⟩ := Option.map_eq_some_iff.mp hpool
      intro d hd
      rw [(Pool.finish_spec hpool).2] at hd
      rcases List.mem_append.mp hd with hd | hd
      · exact h d hd
      · rw [List.mem_singleton.mp hd]
        refine ⟨env, ?_, rfl⟩
        cases heq
        exact hserves y hy

/-- A request of a read, of a page at most. -/
theorem copied_read (hserves : env.Serves r) (htype : r.type = .read) (hzero : r.zero = false) (hbytes : r.bytes ≤ 4096)
    {j : Nat} (hj : j < r.bytes) : Copied env r j := by
  unfold AgentEnv.Serves at hserves
  unfold Copied
  rw [htype] at hserves ⊢
  dsimp only at hserves ⊢
  obtain ⟨tasks, htasks, haddr⟩ := createAgentTasks_spec hserves (by omega)
  unfold doReadRequest
  rw [htasks, hzero]
  exact readMoves_byte (haddr j hj)

theorem copied_write (hserves : env.Serves r) (htype : r.type = .write) (hzero : r.zero = false) {j : Nat}
    (hj : j < r.bytes) : Copied env r j := by
  unfold AgentEnv.Serves at hserves
  unfold Copied
  rw [htype] at hserves ⊢
  dsimp only at hserves ⊢
  unfold doWriteRequest
  rw [hzero, if_neg Bool.false_ne_true]
  refine writeFrags_byte hserves ?_ (Nat.zero_le j) hj
  rw [Nat.zero_add]
  exact Nat.mul_div_le ..

theorem mem_requestsOf {todo : List DeleAction} : r ∈ requestsOf todo ↔ .send r ∈ todo := by
  unfold requestsOf
  rw [List.mem_filterMap]
  constructor
  · rintro ⟨a, ha, heq⟩
    cases a with
    | send r' =>
        cases heq
        exact ha
    | await socket => cases heq
    | ret n => cases heq
  · exact fun h => ⟨_, h, rfl⟩

/-- All the requests of a call that returned bytes were served, and well. -/
theorem served_of_returned (hinv : DeleInv (fun n => 0 < n) cfg s) (hwell : ServedWell s) (hx : s.calls call = some x)
    {n : Nat} (hret : x.returned = some (n : Int)) (hpos : 0 < n) (hr : .send r ∈ x.op.actions cfg call) :
    ∃ env : AgentEnv, env.Serves r ∧ (r, agentServe env r) ∈ s.pool.done := by
  have hcaller := hinv.callers call x hx
  have htodo := (hcaller.returned n hret).1
  have hissued : r ∈ x.issued := by
    have hsent := hcaller.sent
    rw [htodo] at hsent
    have hmem := mem_requestsOf.mpr hr
    rw [hsent] at hmem
    simpa [requestsOf] using hmem
  have hdone : r ∈ s.pool.done.map Prod.fst := by
    have heq := (hinv.returned hx hret (Int.natCast_pos.mpr hpos)).2
    have hmem : r ∈ (x.issued : Multiset DeleRequest) := hissued
    rw [heq] at hmem
    exact (Multiset.mem_filter.mp hmem).1
  obtain ⟨d, hd, rfl⟩ := List.mem_map.mp hdone
  obtain ⟨env, hserves, hresult⟩ := hwell d hd
  exact ⟨env, hserves, hresult ▸ hd⟩

end

/-! ### What the calls move -/

section

variable {mode : WriteMode} {c : WriteCall} {g : CopyConfig} {w w' : WriteLoop} {s : CopyLoop} {t : WriteTurn}
  {ts : List WriteTurn}

/-- The user's bytes of a turn are copied. -/
theorem copies_user {source : Option Nat} (herr : (w.copies mode c g s source).err = none) {x : Nat} (hlo : w.pos ≤ x)
    (hhi : x < w.pos + w.bytes) : ∃ v ∈ (w.copies mode c g s source).writes, ∃ off, v.src = .user off ∧
      off ≤ w.pos - c.pos + (x - w.pos) ∧ w.pos - c.pos + (x - w.pos) < off + v.len := by
  have hbytes : 0 < w.bytes := by omega
  have hturn : ∀ append tryDele,
      (turnCopies g w.file w.pos w.bytes w.blocknr (w.pos - c.pos) append tryDele).err = none →
      ∃ v ∈ (turnCopies g w.file w.pos w.bytes w.blocknr (w.pos - c.pos) append tryDele).writes, ∃ off, v.src = .user off ∧
        off ≤ w.pos - c.pos + (x - w.pos) ∧ w.pos - c.pos + (x - w.pos) < off + v.len := by
    intro append tryDele herr
    rw [turnCopies_ok hbytes herr]
    obtain ⟨v, hv, hcov⟩ : ∃ v ∈ turnWrites g w.file w.pos w.bytes w.blocknr (w.pos - c.pos) append tryDele,
        v.Covers g (w.blocknr + (x / 4096 - w.pos / 4096)) (x % 4096) := turnWrites_user hbytes hlo hhi
    refine ⟨v, hv, ?_⟩
    have hcopy := CopyOf.mem hbytes hv hcov
    obtain ⟨hfrom, hto⟩ := hcov
    cases hcopy with
    | user v k hsrc hplace hlen =>
        have hstored : v.stored g ≤ v.len := NvmmWrite.stored_le
        exact ⟨_, hsrc, by omega, by omega⟩
    | head happend hpos =>
        have hle : (oldWrite g w.file (w.pos / 4096) 0 w.blocknr (w.pos % 4096) tryDele).stored g ≤ w.pos % 4096 :=
          oldWrite_stored_le
        have hto' : 4096 * (w.blocknr + (x / 4096 - w.pos / 4096)) + x % 4096 < 4096 * w.blocknr + 0 +
          (oldWrite g w.file (w.pos / 4096) 0 w.blocknr (w.pos % 4096) tryDele).stored g := hto
        omega
    | tail happend hend =>
        have hfrom' : 4096 * (w.blocknr + ((w.pos + w.bytes) / 4096 - w.pos / 4096)) + (w.pos + w.bytes) % 4096 ≤
          4096 * (w.blocknr + (x / 4096 - w.pos / 4096)) + x % 4096 := hfrom
        omega
  unfold WriteLoop.copies at herr ⊢
  split at herr
  · exact hturn _ _ herr
  · exact hturn _ _ herr
  · exact hturn _ _ herr

/-- And so are all that the turns count. -/
theorem turnsCopies_user (hpos : c.pos ≤ w.pos) (hok : copyTurns mode c g w s ts = ((w', .ok ()), s')) {k : Nat}
    (hlo : w.pos - c.pos ≤ k) (hhi : k < w'.pos - c.pos) :
    ∃ K ∈ turnsCopies mode c g w s ts, ∃ v ∈ K.writes, ∃ off, v.src = .user off ∧ off ≤ k ∧ k < off + v.len := by
  induction ts generalizing w s with
  | nil =>
      cases hok
      omega
  | cons t ts ih =>
      unfold copyTurns at hok
      unfold turnsCopies
      by_cases hnum : w.numBlocks = 0
      · rw [if_pos hnum] at hok
        cases hok
        omega
      · rw [if_neg hnum] at hok ⊢
        dsimp only at hok ⊢
        cases hturn : writeTurn mode c w (t.copied (w.turnCopies mode c g s t)) with
        | mk w₂ result =>
            rw [hturn] at hok
            cases result with
            | error ret => cases hok
            | ok u =>
                dsimp only at hok ⊢
                obtain ⟨w₁, htake, hcopies, herr, hmoved⟩ := writeTurn_copies hturn
                have hpos₁ := (WriteLoop.take_ok htake).1
                by_cases hk : k < w₂.pos - c.pos
                · obtain ⟨v, hv, off, hsrc, hle, hlt⟩ := copies_user (x := c.pos + k) herr (by omega) (by omega)
                  refine ⟨_, List.mem_append_left _ (Option.mem_toList.mpr hcopies), v, hv, off, hsrc, by omega, by omega⟩
                · obtain ⟨K, hK, hv⟩ := ih (by omega) hok (by omega)
                  exact ⟨K, List.mem_append_right _ hK, hv⟩

end

section

variable {cfg : DeleConfig} {s : DeleState} {x : Caller} {call k : Nat}

/-- A read that counts a byte has a transfer for it. -/
theorem transferred_read {buf : Nat} {f : FileTree} {c : ReadCall} {r : ReadResult} (hread : doDaxMappingRead f c = .ok r)
    (hserved : ∀ r, .send r ∈ (DeleOp.read buf f c).actions cfg call →
      ∃ env : AgentEnv, env.Serves r ∧ (r, agentServe env r) ∈ s.pool.done)
    (hk : k < r.copied) : Transferred cfg s call (.read buf f c) k := by
  have hsound := doDaxMappingRead_sound hread
  obtain ⟨t, ht, hleft, hlo, hhi⟩ := hsound.tiled.covers k hk
  refine ⟨t.piece cfg call buf, ?_, hlo, ?_, fun r' hr' => ?_⟩
  · simp only [DeleOp.pieces, hread]
    exact List.mem_map_of_mem ht
  · show k < t.buf + (t.num - t.left)
    omega
  · unfold Transfer.piece at hr'
    dsimp only at hr'
    split at hr'
    · rename_i hdele
      cases hr'
      have hsend : DeleAction.send (t.request cfg call buf) ∈ (DeleOp.read buf f c).actions cfg call := by
        simp only [DeleOp.actions, hread]
        refine List.mem_append_left _ (List.mem_append_left _ (List.mem_map_of_mem (List.mem_filter.mpr ⟨ht, ?_⟩)))
        rw [hdele, hleft]
        rfl
      obtain ⟨env, hserves, hdone⟩ := hserved _ hsend
      have hbytes := hsound.tiled.pages t ht
      exact ⟨env, hdone, copied_read hserves rfl rfl hbytes (show k - t.buf < t.num by omega)⟩
    · cases hr'

/-- A write that counts a byte has copied it. -/
theorem transferred_write {ubuf : Nat} {mode : WriteMode} {f : FileTree} {c : WriteCall} {g : CopyConfig}
    {ts : List WriteTurn} {w : WriteLoop} {s' : CopyLoop}
    (hok : copyTurns mode c g (c.start f) ⟨[], false, false⟩ ts = ((w, .ok ()), s'))
    (hserved : ∀ r, .send r ∈ (DeleOp.write ubuf mode f c g none ts).actions cfg call →
      ∃ env : AgentEnv, env.Serves r ∧ (r, agentServe env r) ∈ s.pool.done)
    (hk : k < w.pos - c.pos) : Transferred cfg s call (.write ubuf mode f c g none ts) k := by
  obtain ⟨K, hK, v, hv, off, hsrc, hlo, hhi⟩ := turnsCopies_user (w := c.start f) le_rfl hok
    (show c.pos - c.pos ≤ k by omega) hk
  have hpiece : v.piece cfg call g ubuf = some ⟨off, v.len, if v.dele then some (v.request cfg call g ubuf) else none⟩ := by
    unfold NvmmWrite.piece
    rw [hsrc]
  refine ⟨_, List.mem_filterMap.mpr ⟨v, List.mem_flatMap.mpr ⟨K, hK, hv⟩, hpiece⟩, hlo, hhi, fun r hr => ?_⟩
  dsimp only at hr
  split at hr
  · rename_i hdele
    cases hr
    have hsend : DeleAction.send (v.request cfg call g ubuf) ∈ (DeleOp.write ubuf mode f c g none ts).actions cfg call :=
      List.mem_append_left _ (List.mem_append_left _ (List.mem_flatMap.mpr ⟨K, hK, List.mem_append_left _
        (List.mem_map_of_mem (List.mem_filter.mpr ⟨hv, hdele⟩))⟩))
    obtain ⟨env, hserves, hdone⟩ := hserved _ hsend
    have hzero : (v.request cfg call g ubuf).zero = false := by
      unfold NvmmWrite.request
      rw [hsrc]
      rfl
    exact ⟨env, hdone, copied_write hserves rfl hzero (show k - off < v.len by omega)⟩
  · cases hr

end

/-! ### What a call returns -/

/-- What a call has done and has still to do is what it has to; what it returned is what it was to
return. -/
structure Caller.Follows (cfg : DeleConfig) (call : Nat) (x : Caller) : Prop where
  todo : x.todo <:+ x.op.actions cfg call
  returned : ∀ n, x.returned = some n → .ret n ∈ x.op.actions cfg call

section

variable {cfg : DeleConfig} {s s' : DeleState} {x x' : Caller} {call k : Nat} {op : DeleOp} {thread : Nat}
  {pool pool' : Pool (Nat × Nat) DeleRequest (List AgentMove)}

theorem Caller.Follows.goOn (h : x.Follows cfg call) (hstep : x.goOn cfg thread pool = some (pool', x')) :
    x'.Follows cfg call := by
  have hrest : ∀ {a : DeleAction} {todo : List DeleAction}, x.todo = a :: todo → todo <:+ x.op.actions cfg call :=
    fun htodo => (List.suffix_cons _ _).trans (htodo ▸ h.todo)
  unfold Caller.goOn at hstep
  split at hstep
  · cases hstep
  · rename_i r todo htodo
    split at hstep
    · cases hstep
      exact ⟨hrest htodo, h.returned⟩
    · cases hstep
  · rename_i socket todo htodo
    split at hstep
    · cases hstep
      exact ⟨hrest htodo, h.returned⟩
    · cases hstep
  · rename_i n todo htodo
    cases hstep
    refine ⟨hrest htodo, fun m hm => ?_⟩
    cases hm
    exact h.todo.subset (htodo ▸ List.mem_cons_self)

/-- Every call follows what it has to do. -/
theorem follows_step {a : DeleAct} (h : ∀ call x, s.calls call = some x → x.Follows cfg call) (hstep : DeleStep cfg s a s') :
    ∀ call x, s'.calls call = some x → x.Follows cfg call := by
  intro k y hy
  cases a with
  | start call op =>
      unfold DeleStep deleStep at hstep
      dsimp only at hstep
      split at hstep
      · cases hstep
      · obtain rfl := Option.some.inj hstep
        dsimp only at hy
        by_cases hcall : k = call
        · subst hcall
          rw [Function.update_self] at hy
          obtain rfl := Option.some.inj hy
          exact ⟨List.suffix_refl _, nofun⟩
        · rw [Function.update_of_ne hcall] at hy
          exact h k y hy
  | goOn call thread =>
      obtain ⟨x, hx, hstep⟩ := Option.bind_eq_some_iff.mp hstep
      obtain ⟨⟨pool, x'⟩, hgo, rfl⟩ := Option.map_eq_some_iff.mp hstep
      dsimp only at hy
      by_cases hcall : k = call
      · subst hcall
        rw [Function.update_self] at hy
        obtain rfl := Option.some.inj hy
        exact (h k x hx).goOn hgo
      · rw [Function.update_of_ne hcall] at hy
        exact h k y hy
  | recv socket thread =>
      obtain ⟨pool, hpool, rfl⟩ := Option.map_eq_some_iff.mp hstep
      exact h k y hy
  | serve socket thread env =>
      obtain ⟨⟨r, pool⟩, hpool, rfl⟩ := Option.map_eq_some_iff.mp hstep
      dsimp only at hy
      by_cases hcall : k = r.call
      · subst hcall
        rw [Function.update_self] at hy
        obtain ⟨x, hx, rfl⟩ := Option.map_eq_some_iff.mp hy
        exact ⟨(h r.call x hx).todo, (h r.call x hx).returned⟩
      · rw [Function.update_of_ne hcall] at hy
        exact h k y hy

end

section

variable {mode : WriteMode} {c : WriteCall} {g : CopyConfig} {w w' : WriteLoop} {s s' : CopyLoop} {t : WriteTurn}
  {ts : List WriteTurn} {ret : Int}

theorem novaAppendFileWriteEntry_nonpos (h : novaAppendFileWriteEntry c w t = (w', .error ret)) : ret ≤ 0 := by
  have hcode := Errno.code_pos .enospc
  unfold novaAppendFileWriteEntry at h
  dsimp only at h
  split at h
  · cases h
    omega
  · cases h
    omega
  · cases h

/-- A write that fails returns nothing that could be a count. -/
theorem writeTurn_nonpos (h : writeTurn mode c w t = (w', .error ret)) : ret ≤ 0 := by
  unfold writeTurn at h
  cases htake : w.take mode c t with
  | mk w₁ r₁ =>
      rw [htake] at h
      cases r₁ with
      | error ret₁ =>
          cases h
          unfold WriteLoop.take at htake
          split at htake
          · cases htake
          · split at htake
            · rename_i hle
              cases htake
              exact hle
            · cases htake
      | ok u =>
          dsimp only at h
          cases hcopy : w₁.copy mode t with
          | mk w₂ r₂ =>
              rw [hcopy] at h
              cases r₂ with
              | error ret₂ =>
                  cases h
                  have hcode : ∀ e : Errno, -e.code ≤ 0 := fun e => by
                    have := Errno.code_pos e
                    omega
                  unfold WriteLoop.copy at hcopy
                  split at hcopy
                  · cases hcopy
                    exact hcode _
                  split at hcopy
                  · cases hcopy
                    exact hcode _
                  split at hcopy
                  · cases hcopy
                    exact hcode _
                  · cases hcopy
                    exact hcode _
                  · cases hcopy
              | ok u =>
                  dsimp only at h
                  split at h
                  · cases h
                  · cases happend : novaAppendFileWriteEntry c w₂ t with
                    | mk w₃ r₃ =>
                        rw [happend] at h
                        cases r₃ with
                        | error ret₃ =>
                            cases h
                            exact novaAppendFileWriteEntry_nonpos happend
                        | ok u => cases h

theorem copyTurns_nonpos (h : copyTurns mode c g w s ts = ((w', .error ret), s')) : ret ≤ 0 := by
  induction ts generalizing w s with
  | nil => cases h
  | cons t ts ih =>
      unfold copyTurns at h
      split at h
      · cases h
      · dsimp only at h
        split at h
        · rename_i w₁ ret₁ hturn
          cases h
          exact writeTurn_nonpos hturn
        · exact ih h

end

section

variable {cfg : DeleConfig} {s : DeleState} {x : Caller} {call k n : Nat}

/-- A call returns what it counts. -/
theorem ret_read {buf : Nat} {f : FileTree} {c : ReadCall} (hret : .ret (n : Int) ∈ (DeleOp.read buf f c).actions cfg call)
    (hpos : 0 < n) : ∃ r, doDaxMappingRead f c = .ok r ∧ n = r.copied := by
  unfold DeleOp.actions at hret
  dsimp only at hret
  cases hread : doDaxMappingRead f c with
  | error e =>
      rw [hread] at hret
      cases hret
  | ok r =>
      rw [hread] at hret
      have hnret : (n : Int) = r.ret := by
        unfold ReadResult.actions at hret
        rcases List.mem_append.mp hret with hret | hret
        · rcases List.mem_append.mp hret with hret | hret
          · obtain ⟨t, -, heq⟩ := List.mem_map.mp hret
            cases heq
          · split at hret
            · obtain ⟨i, -, heq⟩ := List.mem_map.mp hret
              cases heq
            · cases hret
        · exact DeleAction.ret.inj (List.mem_singleton.mp hret)
      refine ⟨r, rfl, ?_⟩
      have hcopied := (doDaxMappingRead_sound hread).copied (by omega)
      omega

theorem ret_write {ubuf : Nat} {mode : WriteMode} {f : FileTree} {c : WriteCall} {g : CopyConfig} {early : Option Errno}
    {ts : List WriteTurn} (hret : .ret (n : Int) ∈ (DeleOp.write ubuf mode f c g early ts).actions cfg call) (hpos : 0 < n) :
    early = none ∧ ∃ w s', copyTurns mode c g (c.start f) ⟨[], false, false⟩ ts = ((w, .ok ()), s') ∧ n = w.pos - c.pos := by
  unfold DeleOp.actions writeActions at hret
  cases early with
  | some e =>
      have hcode := Errno.code_pos e
      have heq := DeleAction.ret.inj (List.mem_singleton.mp hret)
      omega
  | none =>
      refine ⟨rfl, ?_⟩
      dsimp only at hret
      rcases List.mem_append.mp hret with hret | hret
      · rcases List.mem_append.mp hret with hret | hret
        · obtain ⟨K, -, hret⟩ := List.mem_flatMap.mp hret
          rcases List.mem_append.mp hret with hret | hret
          · obtain ⟨v, -, heq⟩ := List.mem_map.mp hret
            cases heq
          · split at hret
            · obtain ⟨i, -, heq⟩ := List.mem_map.mp hret
              cases heq
            · cases hret
        · split at hret
          · obtain ⟨i, -, heq⟩ := List.mem_map.mp hret
            cases heq
          · cases hret
      · have heq := DeleAction.ret.inj (List.mem_singleton.mp hret)
        cases hturns : copyTurns mode c g (c.start f) ⟨[], false, false⟩ ts with
        | mk r s' =>
            obtain ⟨w, result⟩ := r
            rw [hturns] at heq
            cases result with
            | error ret =>
                have hle := copyTurns_nonpos hturns
                dsimp only at heq
                omega
            | ok u =>
                dsimp only at heq
                exact ⟨w, s', rfl, by omega⟩

/-- What holds in every state while no agent fails. -/
structure CountInv (cfg : DeleConfig) (s : DeleState) : Prop where
  settled : DeleInv (fun n => 0 < n) cfg s
  well : ServedWell s
  follows : ∀ call x, s.calls call = some x → x.Follows cfg call

theorem CountInv.step {s' : DeleState} {a : DeleAct} (h : CountInv cfg s) (hsocket : ∀ b, cfg.socket b < novaMaxSocket)
    (hstep : Guarded (fun s a => a.Serves s) (DeleStep cfg) s a s') : CountInv cfg s' := by
  refine ⟨h.settled.step ?_ hstep.2, h.well.step hstep.1 hstep.2, follows_step h.follows hstep.2⟩
  rintro call op -
  cases op with
  | read buf f c => exact DeleOp.waits_read hsocket fun _ hn => Or.inl hn
  | write ubuf mode f c g early ts => exact DeleOp.waits_write hsocket

/-- **What a call counts has been copied**, whatever the order, while no agent fails. -/
theorem delegation_counts_transferred (hsocket : ∀ b, cfg.socket b < novaMaxSocket)
    (hrun : Runs (Guarded (fun s a => a.Serves s) (DeleStep cfg)) .init s) (hx : s.calls call = some x)
    (hret : x.returned = some (n : Int)) (hk : k < n) : Transferred cfg s call x.op k := by
  have hinit : CountInv cfg .init := ⟨.init, nofun, nofun⟩
  obtain ⟨hinv, hwell, hfollows⟩ := hrun.invariant (fun s a s' hs hstep => CountInv.step hs hsocket hstep) hinit
  have hserved := fun r => served_of_returned (r := r) hinv hwell hx hret (by omega)
  have hreturns := (hfollows call x hx).returned n hret
  cases hop : x.op with
  | read buf f c =>
      rw [hop] at hserved hreturns
      obtain ⟨r, hread, rfl⟩ := ret_read hreturns (by omega)
      exact transferred_read hread hserved hk
  | write ubuf mode f c g early ts =>
      rw [hop] at hserved hreturns
      obtain ⟨rfl, w, s', hturns, rfl⟩ := ret_write hreturns (by omega)
      exact transferred_write hturns hserved hk

end

/-- A read of a page whose agent finds the page of the user. -/
theorem delegation_counts_transferred_pageRead :
    ∃ s x, s.calls 0 = some x ∧ x.returned = some ((4096 : Nat) : Int) ∧ ∀ k < 4096, Transferred oneRing s 0 x.op k := by
  have hview : ((deleRun oneRing .init (pageRead allPresent)).bind fun s => s.view 0) =
      some ⟨some 4096, [pageRequest], [], [(pageRequest, [⟨12288, some 40960, 4096⟩])]⟩ := by decide +kernel
  obtain ⟨s, x, hs, hx, hret, -⟩ := exists_of_view hview
  have hserves : ∀ s, ∀ a ∈ pageRead allPresent, a.Serves s := by
    intro s a ha
    simp only [pageRead, List.mem_append, List.mem_cons, List.not_mem_nil, or_false, List.mem_replicate] at ha
    rcases ha with (rfl | rfl | rfl | rfl) | ⟨-, rfl⟩
    · trivial
    · trivial
    · trivial
    · intro y hy
      unfold AgentEnv.Serves
      split
      · intro a hlo hhi
        unfold userVirtAddrToPhyAddr allPresent
        dsimp only
        omega
      · exact fun _ => rfl
    · trivial
  exact ⟨s, x, hx, hret, fun k hk => delegation_counts_transferred oneRing_socket (runs_of_deleRun hserves hs) hx hret hk⟩

/-- The page of the user is gone when the agent looks for it: the read returns a whole page, and nothing
was copied. -/
theorem delegation_counts_untransferred :
    ¬∀ (cfg : DeleConfig) (s : DeleState) (call : Nat) (x : Caller) (n k : Nat), (∀ b, cfg.socket b < novaMaxSocket) →
      Runs (DeleStep cfg) .init s → s.calls call = some x → x.returned = some (n : Int) → k < n →
      Transferred cfg s call x.op k := by
  intro hall
  have hview : ((deleRun oneRing .init (pageRead ⟨fun _ => none, fun _ => 0⟩)).bind fun s => s.view 0) =
      some ⟨some 4096, [pageRequest], [], [(pageRequest, [])]⟩ := by decide +kernel
  have hops : ((deleRun oneRing .init (pageRead ⟨fun _ => none, fun _ => 0⟩)).bind fun s => (s.calls 0).map Caller.op) =
      some (.read 8192 threePages.file readPage) := rfl
  have hpieces : (DeleOp.read 8192 threePages.file readPage).pieces oneRing 0 = [⟨0, 4096, some pageRequest⟩] := by
    decide +kernel
  obtain ⟨s, x, hs, hx, hret, -, -, hdone⟩ := exists_of_view hview
  have hop : x.op = .read 8192 threePages.file readPage := by
    rw [hs, Option.bind_some, hx] at hops
    exact Option.some.inj hops
  have hrun : Runs (Guarded (fun _ _ => True) (DeleStep oneRing)) .init s := runs_of_deleRun (fun _ _ _ => trivial) hs
  have hmoved := hall oneRing s 0 x 4096 0 oneRing_socket (hrun.map fun s a t h => ⟨a, h.2⟩) hx hret (by decide)
  rw [hop] at hmoved
  obtain ⟨p, hp, -, -, hserved⟩ := hmoved
  rw [hpieces] at hp
  obtain rfl := List.mem_singleton.mp hp
  obtain ⟨env, hmem, hcopied⟩ := hserved pageRequest rfl
  rw [hdone] at hmem
  have hnone : doReadRequest env pageRequest = [] := congrArg Prod.snd (List.mem_singleton.mp hmem)
  obtain ⟨m, hm, -⟩ : ∃ m ∈ doReadRequest env pageRequest, ∃ b, m.src = some b ∧ b ≤ pageRequest.kaddr + (0 - 0) ∧
    pageRequest.kaddr + (0 - 0) < b + m.size ∧
    m.dst + (pageRequest.kaddr + (0 - 0) - b) = userVirtAddrToPhyAddr env (pageRequest.uaddr + (0 - 0)) := hcopied
  rw [hnone] at hm
  cases hm

end Parfs
