/-
The pages of a user's buffer.

The memory of a user may be anywhere, or not be there at all.  So a caller that leaves a read to an
agent touches every page of the buffer while it is still at it, and the agent goes through the page
table page by page and makes a task of what is in one piece.  Its tasks are in an array on its
stack.

Addresses are of 64 bits here.  A length is one that `left_bytes` can hold.
-/
import Parfs.Delegation

namespace Parfs

open Lib

/-! ### Before the request -/

/-- `ROUNDUP_PAGE` -/
def roundupPage (p : Nat) : Nat := (p / 4096 * 4096 + 4096) % 2 ^ 64

/-- What a loop over the pages has done: the addresses it accessed, and `ret`. -/
structure Prefault where
  accessed : List Nat
  ret : Nat
  deriving DecidableEq, Repr

section

-- `__clear_user` of one byte
variable (clearUser : Nat → Nat)

/-- The loop of `nova_do_read_delegation` from `i` on; none when it takes more turns than that. -/
def prefaultLoop (uaddr bytes uaddrEnd : Nat) : Nat → Nat → Option Prefault
  | 0, _ => none
  | fuel + 1, i =>
    if i < uaddrEnd then
      let last := (uaddr + bytes - 1) % 2 ^ 64
      let targetAddr := if i > last then last else i
      let ret := clearUser targetAddr
      if ret ≠ 0 then some ⟨[targetAddr], ret⟩
      else
        (prefaultLoop uaddr bytes uaddrEnd fuel ((i + 4096) % 2 ^ 64)).map fun r =>
          { r with accessed := targetAddr :: r.accessed }
    else some ⟨[], 0⟩

/-- `nova_do_read_delegation`, up to the request. -/
def prefault (uaddr bytes fuel : Nat) : Option Prefault :=
  prefaultLoop clearUser uaddr bytes (roundupPage (uaddr + bytes - 1)) fuel uaddr

end

/-! ### At the agent -/

/-- `blk_type_to_size` -/
def blkTypeToSize : List Nat := [0x1000, 0x8000, 0x200000, 0x40000000]

/-- `tasks` of a request, those before `tasks_index`, and the indices that are stored to. -/
structure TaskArray where
  tasks : List AgentTask
  stores : List Nat
  deriving DecidableEq, Repr

/-- A piece of memory more.  A new task is in the array by the time its index is looked at; false
is the way out. -/
def TaskArray.add (a : TaskArray) (kuaddr size : Nat) : TaskArray × Bool :=
  let fresh : TaskArray × Bool :=
    (⟨a.tasks ++ [⟨kuaddr, size⟩], a.stores ++ [a.tasks.length]⟩,
      !(a.tasks.length + 1 > novaAgentTaskMaxSize))
  match a.tasks.getLast? with
  | none => fresh
  | some t =>
    if kuaddr ≠ t.kuaddr + t.size then fresh
    else (⟨a.tasks.dropLast ++ [⟨t.kuaddr, t.size + size⟩], a.stores ++ [a.tasks.length - 1]⟩, true)

/-- The loop of `create_agent_tasks`, with a bound on its turns. -/
def fillTasks (env : AgentEnv) (uaddrEnd : Nat) : Nat → Nat → Nat → TaskArray → TaskArray × Bool
  | 0, _, _, a => (a, true)
  | fuel + 1, i, leftBytes, a =>
    if i < uaddrEnd then
      let phyAddr := userVirtAddrToPhyAddr env i
      if phyAddr = 0 then (a, false)
      else
        let size := min (4096 - i % 4096) leftBytes
        match a.add phyAddr size with
        | (a, false) => (a, false)
        | (a, true) => fillTasks env uaddrEnd fuel ((i + size) % 2 ^ 64) (leftBytes - size) a
    else (a, true)

/-- `create_agent_tasks` with its array; false is -1. -/
def createAgentTasksIn (env : AgentEnv) (uaddr bytes : Nat) : TaskArray × Bool :=
  fillTasks env ((uaddr + bytes) % 2 ^ 64) (bytes / 4096 + 2) uaddr bytes ⟨[], []⟩

end Parfs
