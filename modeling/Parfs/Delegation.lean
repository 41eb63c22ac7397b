/-
Delegation of copies.

A caller that does not copy for itself puts a request into a ring of the socket the block is on and
counts it as issued.  Each ring has an agent: it takes the requests one after another, copies,
and counts the request as completed, whatever came of the copy.  Before it returns, the caller
waits, socket after socket, until as many are completed as it has issued.  The counters are the
caller's own, on its stack.

A ring takes a request or asks to try again, and gives it to its agent once; stopping the agents is
left out.  A write has its data in a buffer of the kernel, so agents go through the page table for
reads only.
-/
import Parfs.FileCopy
import Parfs.FileRead
import Parfs.Lib.Pool
import Parfs.Lib.Run

namespace Parfs

open Lib

/-- `NOVA_MAX_SOCKET` -/
def novaMaxSocket : Nat := 8

/-- `NOVA_READ_DELEGATION_LIMIT` -/
def novaReadDelegationLimit : Nat := 4096

/-- `NOVA_AGENT_TASK_MAX_SIZE` -/
def novaAgentTaskMaxSize : Nat := 12

/-- `NOVA_AGENT_FRAG_SIZE` -/
def novaAgentFragSize : Nat := 1024

/-- `NOVA_REQUEST_READ` or `NOVA_REQUEST_WRITE` -/
inductive RequestType where
  | read | write
  deriving DecidableEq, Repr

/-- `struct nova_delegation_request`; `notify_cnt` is the counter of `call` for `socket`. -/
structure DeleRequest where
  type : RequestType
  zero : Bool
  flushCache : Bool
  uaddr : Nat
  kaddr : Nat
  bytes : Nat
  call : Nat
  socket : Nat
  deriving DecidableEq, Repr

/-! ### Agents -/

/-- What an agent finds when it serves a request. -/
structure AgentEnv where
  /-- the page table: the frame of a page, when it is present -/
  pte : Nat → Option Nat
  /-- what `__copy_from_user_inatomic_nocache` leaves of the bytes from there on -/
  left : Nat → Nat

/-- `struct nova_agent_tasks` -/
structure AgentTask where
  kuaddr : Nat
  size : Nat
  deriving DecidableEq, Repr

/-- A copy that an agent has done; without a source it is zeros. -/
structure AgentMove where
  dst : Nat
  src : Option Nat
  size : Nat
  deriving DecidableEq, Repr

section

variable (env : AgentEnv)

/-- `user_virt_addr_to_phy_addr`; the table has large pages by their parts. -/
def userVirtAddrToPhyAddr (uaddr : Nat) : Nat :=
  match env.pte (uaddr / 4096) with
  | none => 0
  | some pfn => 4096 * pfn + uaddr % 4096

/-- The task for a piece of memory: a new one, or the last one goes on. -/
def addTask (tasks : List AgentTask) (kuaddr size : Nat) : Option (List AgentTask) :=
  match tasks.getLast? with
  | some t =>
    if kuaddr ≠ t.kuaddr + t.size then
      if tasks.length + 1 > novaAgentTaskMaxSize then none else some (tasks ++ [⟨kuaddr, size⟩])
    else some (tasks.dropLast ++ [⟨t.kuaddr, t.size + size⟩])
  | none => some [⟨kuaddr, size⟩]

/-- The loop of `create_agent_tasks`, with a bound on its turns. -/
def createTasksLoop (uaddrEnd : Nat) : Nat → Nat → Nat → List AgentTask → Option (List AgentTask)
  | 0, _, _, tasks => some tasks
  | fuel + 1, i, leftBytes, tasks =>
    if i < uaddrEnd then
      let phyAddr := userVirtAddrToPhyAddr env i
      if phyAddr = 0 then none
      else
        -- `ROUNDUP_PAGE(i) - i`
        let size := min (4096 - i % 4096) leftBytes
        match addTask tasks phyAddr size with
        | none => none
        | some tasks => createTasksLoop uaddrEnd fuel (i + size) (leftBytes - size) tasks
    else some tasks

/-- `create_agent_tasks`; none is -1. -/
def createAgentTasks (uaddr bytes : Nat) : Option (List AgentTask) :=
  createTasksLoop env (uaddr + bytes) (bytes / 4096 + 2) uaddr bytes []

/-- What a read request does with its tasks. -/
def readMoves (zero : Bool) : Nat → List AgentTask → List AgentMove
  | _, [] => []
  | kaddr, t :: ts =>
    if zero then ⟨t.kuaddr, none, t.size⟩ :: readMoves zero kaddr ts
    else ⟨t.kuaddr, some kaddr, t.size⟩ :: readMoves zero (kaddr + t.size) ts

/-- `do_read_request`, but for the counter -/
def doReadRequest (r : DeleRequest) : List AgentMove :=
  match createAgentTasks env r.uaddr r.bytes with
  | none => []
  | some tasks => readMoves r.zero r.kaddr tasks

/-- `memcpy_to_pmem_avx_nocache`, of the bytes from `i` on: what it leaves. -/
def memcpyToPmemAvxNocache (r : DeleRequest) (i size : Nat) : Nat :=
  if (r.kaddr + i) % 64 = 0 ∧ (r.uaddr + i) % 64 = 0 then 0 else min (env.left i) size

/-- The fragments of a write request, and the last one. -/
def writeFrags (r : DeleRequest) : Nat → Nat → List AgentMove
  | 0, i =>
    if r.bytes - i ≠ 0 then
      [⟨r.kaddr + i, some (r.uaddr + i), r.bytes - i - memcpyToPmemAvxNocache env r i (r.bytes - i)⟩]
    else []
  | frag + 1, i =>
    let left := memcpyToPmemAvxNocache env r i novaAgentFragSize
    ⟨r.kaddr + i, some (r.uaddr + i), novaAgentFragSize - left⟩ ::
      if left ≠ 0 then [] else writeFrags r frag (i + novaAgentFragSize)

/-- `do_write_request`, but for the counter -/
def doWriteRequest (r : DeleRequest) : List AgentMove :=
  if r.zero then [⟨r.kaddr, none, if r.flushCache then r.bytes / 4 * 4 else r.bytes⟩]
  else writeFrags env r (r.bytes / novaAgentFragSize) 0

/-- What `agent_func` does for a request. -/
def agentServe (r : DeleRequest) : List AgentMove :=
  match r.type with
  | .read => doReadRequest env r
  | .write => doWriteRequest env r

end

/-! ### Callers -/

/-- What a call does that others see. -/
inductive DeleAction where
  /-- `nova_send_request` -/
  | send (r : DeleRequest)
  /-- a turn of `nova_complete_delegation` -/
  | await (socket : Nat)
  | ret (n : Int)
  deriving DecidableEq, Repr

/-- The machine and the mount. -/
structure DeleConfig where
  /-- `nova_block_to_socket` -/
  socket : Nat → Nat
  /-- `nova_num_of_rings_per_socket` -/
  rings : Nat
  /-- `data_csum` or `data_parity` -/
  protects : Bool

/-- A call of one of the three, with what is not the file's. -/
inductive DeleOp where
  /-- `do_dax_mapping_read` -/
  | read (buf : Nat) (f : FileTree) (c : ReadCall)
  /-- `do_nova_cow_file_write` or `do_nova_inplace_file_write`; `ubuf` is the copy of the user's
  buffer, `early` the error the call leaves with before the loop. -/
  | write (ubuf : Nat) (mode : WriteMode) (f : FileTree) (c : WriteCall) (g : CopyConfig) (early : Option Errno)
    (ts : List WriteTurn)

section

variable (cfg : DeleConfig) (call : Nat)

/-- `nova_complete_delegation` -/
def novaCompleteDelegation : List DeleAction := (List.range novaMaxSocket).map .await

/-- Whether `do_nova_nvmm_read` sets `is_dele`. -/
def Transfer.delegated (t : Transfer) : Bool := t.src.isSome && novaReadDelegationLimit ≤ t.num

/-- What `nova_do_read_delegation` sends. -/
def Transfer.request (buf : Nat) (t : Transfer) : DeleRequest :=
  let src := t.src.getD (0, 0)
  ⟨.read, false, false, buf + t.buf, 4096 * src.1 + src.2, t.num, call, cfg.socket src.1⟩

/-- A read: a transfer that leaves something has failed before its request was sent. -/
def ReadResult.actions (buf : Nat) (r : ReadResult) : List DeleAction :=
  ((r.transfers.filter fun t => t.delegated && t.left = 0).map fun t => .send (t.request cfg call buf)) ++
    (if r.out && r.transfers.any Transfer.delegated then novaCompleteDelegation else []) ++ [.ret r.ret]

/-- What `nova_do_write_delegation` sends. -/
def NvmmWrite.request (g : CopyConfig) (ubuf : Nat) (w : NvmmWrite) : DeleRequest :=
  let uaddr :=
    match w.src with
    | .zero => 0
    | .block nvmm => 4096 * nvmm + w.offset
    | .user off => ubuf + off
  -- the copy of whole blocks has it set, the others go by the machine
  let flushCache := g.supportClwb || (w.offset = 0 && w.len % 4096 = 0)
  ⟨.write, w.src = .zero, flushCache, uaddr, 4096 * w.blocknr + w.offset, w.len, call, cfg.socket w.blocknr⟩

/-- The copies of the turns that get as far, one by one. -/
def turnsCopies (mode : WriteMode) (c : WriteCall) (g : CopyConfig) : WriteLoop → CopyLoop → List WriteTurn → List Copies
  | _, _, [] => []
  | w, s, t :: ts =>
    if w.numBlocks = 0 then []
    else
      let k := w.turnCopies mode c g s t
      match writeTurn mode c w (t.copied k) with
      | (_, .error _) => k.toList
      | (w', .ok ()) => k.toList ++ turnsCopies mode c g w' (s.after w k) ts

/-- A turn of a write.  Without checksums a copy on write waits in each turn. -/
def Copies.actions (mode : WriteMode) (g : CopyConfig) (ubuf : Nat) (k : Copies) : List DeleAction :=
  ((k.writes.filter NvmmWrite.dele).map fun w => .send (w.request cfg call g ubuf)) ++
    if mode = .cow ∧ cfg.protects = false ∧ k.err = none then novaCompleteDelegation else []

/-- A write. -/
def writeActions (ubuf : Nat) (mode : WriteMode) (f : FileTree) (c : WriteCall) (g : CopyConfig) (early : Option Errno)
    (ts : List WriteTurn) : List DeleAction :=
  match early with
  | some e => [.ret (-e.code)]
  | none =>
    let r := copyTurns mode c g (c.start f) ⟨[], false, false⟩ ts
    (turnsCopies mode c g (c.start f) ⟨[], false, false⟩ ts).flatMap (Copies.actions cfg call mode g ubuf) ++
      (if r.2.isDele then novaCompleteDelegation else []) ++
      [.ret (match r.1.2 with
        | .ok () => ((r.1.1.pos - c.pos : Nat) : Int)
        | .error ret => ret)]

/-- A call. -/
def DeleOp.actions : DeleOp → List DeleAction
  | .read buf f c =>
    match doDaxMappingRead f c with
    | .ok r => r.actions cfg call buf
    | .error _ => []
  | .write ubuf mode f c g early ts => writeActions cfg call ubuf mode f c g early ts

end

/-! ### All together -/

/-- A call that was started. -/
structure Caller where
  op : DeleOp
  /-- what it still has to do -/
  todo : List DeleAction
  issuedCnt : Nat → Nat
  completedCnt : Nat → Nat
  /-- the requests it has sent -/
  issued : List DeleRequest
  returned : Option Int

/-- Requests are in the rings, known by socket and thread, or with the agents of these. -/
structure DeleState where
  pool : Pool (Nat × Nat) DeleRequest (List AgentMove)
  calls : Nat → Option Caller

def DeleState.init : DeleState := ⟨.empty, fun _ => none⟩

/-- One step of one party. -/
inductive DeleAct where
  | start (call : Nat) (op : DeleOp)
  /-- the caller goes on; `thread` is the ring it chooses -/
  | goOn (call thread : Nat)
  | recv (socket thread : Nat)
  | serve (socket thread : Nat) (env : AgentEnv)

section

variable (cfg : DeleConfig)

/-- The caller goes on. -/
def Caller.goOn (x : Caller) (thread : Nat) (pool : Pool (Nat × Nat) DeleRequest (List AgentMove)) :
    Option (Pool (Nat × Nat) DeleRequest (List AgentMove) × Caller) :=
  match x.todo with
  | [] => none
  | .send r :: todo =>
    if thread < cfg.rings then
      some (pool.put (r.socket, thread) r,
        { x with
          todo := todo
          issuedCnt := Function.update x.issuedCnt r.socket (x.issuedCnt r.socket + 1)
          issued := x.issued ++ [r] })
    else none
  | .await socket :: todo =>
    if x.issuedCnt socket = x.completedCnt socket then some (pool, { x with todo := todo }) else none
  | .ret n :: todo => some (pool, { x with todo := todo, returned := some n })

/-- `atomic_inc(notify_cnt)` -/
def Caller.notify (x : Caller) (socket : Nat) : Caller :=
  { x with completedCnt := Function.update x.completedCnt socket (x.completedCnt socket + 1) }

def deleStep (s : DeleState) : DeleAct → Option DeleState
  | .start call op =>
    match s.calls call with
    | some _ => none
    | none =>
      some { s with
        calls := Function.update s.calls call (some ⟨op, op.actions cfg call, fun _ => 0, fun _ => 0, [], none⟩) }
  | .goOn call thread =>
    (s.calls call).bind fun x =>
      (x.goOn cfg thread s.pool).map fun r => ⟨r.1, Function.update s.calls call (some r.2)⟩
  | .recv socket thread => (s.pool.take (socket, thread)).map fun pool => { s with pool := pool }
  | .serve socket thread env =>
    (s.pool.finish (socket, thread) (agentServe env)).map fun r =>
      ⟨r.2, Function.update s.calls r.1.call ((s.calls r.1.call).map fun x => x.notify r.1.socket)⟩

/-- Calls and agents, in any order. -/
def DeleStep (s : DeleState) (a : DeleAct) (s' : DeleState) : Prop := deleStep cfg s a = some s'

end

end Parfs
