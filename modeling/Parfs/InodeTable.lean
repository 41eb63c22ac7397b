/-
The inode tables.

The inodes of a CPU are in a chain of superpages.  A superpage has 16384 slots of 128 bytes; an
inode takes 120, so the last eight bytes of a superpage are free to hold the address of the next.
The chain is made longer when a new inode needs it, and with replicas there is a second table, which
is made longer after the first.

Addresses are offsets in the metadata area.  What the allocator answers is left to `TableEnv`, call
by call; a superpage that it grants is zero.
-/
import Parfs.InodeMap
import Parfs.Layout

namespace Parfs

open Lib

/-- `MAX_CPUS`; no file system with more is mounted. -/
def maxCpus : Nat := 1024

/-- `NOVA_INODE_SIZE`, the distance between inodes -/
def novaInodeSize : Nat := 128

/-- `sizeof(struct nova_inode)` -/
def novaInodeBytes : Nat := 120

/-- The size of a block of `NOVA_BLOCK_TYPE_2M`. -/
def superpageSize : Nat := 0x200000

/-- `NOVA_BLOCK_TYPE_2M` has 21 bits, and an inode `NOVA_INODE_BITS`. -/
def numInodesBits : Nat := 21 - 7

/-- The machine, the mount and the allocator. -/
structure TableEnv where
  cpus : Nat
  cpus_pos : 0 < cpus
  cpus_le : cpus ≤ maxCpus
  metadataCsum : Bool
  layout : NvmLayout
  /-- `nova_new_log_blocks` of one superpage, one call after another -/
  grants : Nat → NewBlocks

/-- The metadata area by words, and how often the allocator was asked. -/
structure InodeTables where
  words : Nat → Nat
  calls : Nat

/-- `nova_get_inode_table`: where `log_head` is. -/
def novaGetInodeTable (version cpu : Nat) : Nat := 4096 * (if version % 2 = 0 then 16 else 32) + cpu * 64

/-- `nova_get_reserved_inode_addr` -/
def novaGetReservedInodeAddr (inodeNumber : Nat) : Nat := 4096 * 1 + inodeNumber * novaInodeSize

section

variable (env : TableEnv)

/-- The superpage of a grant. -/
def TableEnv.block (n : Nat) : Nat := env.layout.novaGetBlockOff (env.grants n).blocknr .b2M .log

namespace InodeTables

variable (s : InodeTables)

/-- A store. -/
def setWord (addr value : Nat) : InodeTables := { s with words := Function.update s.words addr value }

/-- `nova_new_log_blocks` of a superpage with `ALLOC_INIT_ZERO`. -/
def newSuperpage : InodeTables × Int :=
  let block := env.block s.calls
  ({ words := fun a =>
      if (env.grants s.calls).ret = 1 ∧ block ≤ a ∧ a < block + superpageSize then 0 else s.words a
     calls := s.calls + 1 }, (env.grants s.calls).ret)

/-! ### At the first mount -/

/-- A turn of `nova_alloc_inode_table`. -/
def allocTable (version cpu : Nat) : Except Errno InodeTables :=
  match s.newSuperpage env with
  | (s', allocated) =>
    if allocated ≠ 1 ∨ (env.grants s.calls).blocknr = 0 then .error .enospc
    else .ok (s'.setWord (novaGetInodeTable version cpu) (env.block s.calls))

/-- `nova_alloc_inode_table` -/
def novaAllocInodeTable (version : Nat) : Except Errno InodeTables :=
  (List.range env.cpus).foldlM (fun s cpu => s.allocTable env version cpu) s

/-- `nova_init_inode_table`, but for the inode of the tables -/
def novaInitInodeTable : Except Errno InodeTables :=
  (List.range (if env.metadataCsum then 2 else 1)).foldlM (fun s version => s.novaAllocInodeTable env version) s

/-! ### Finding an inode -/

/-- The loop of `nova_get_inode_address`: `curr` and `extended` after it. -/
def walk (extendable : Bool) : Nat → InodeTables → Nat → Bool → InodeTables × Except Int (Nat × Bool)
  | 0, s, curr, extended => (s, .ok (curr, extended))
  | n + 1, s, curr, extended =>
    if curr = 0 then (s, .error (-Errno.einval.code))
    else
      -- the last 8 bytes of the superpage
      let currAddr := curr + (superpageSize - 8)
      if s.words currAddr = 0 then
        if !extendable then (s, .error (-Errno.einval.code))
        else
          match s.newSuperpage env with
          | (s', allocated) =>
            if allocated ≠ 1 then (s', .error allocated)
            else walk extendable n (s'.setWord currAddr (env.block s.calls)) (env.block s.calls) true
      else walk extendable n s (s.words currAddr) extended

/-- `nova_get_inode_address`, with what it does to the other table: what it returns, and `*pi_addr`
when it is set. -/
def getAddress (ino version : Nat) (extendable : Bool) (alternate : InodeTables → InodeTables) :
    InodeTables × Int × Option Nat :=
  if ino < novaNormalInodeStart then (s, 0, some (novaGetReservedInodeAddr ino))
  else
    let internalIno := ino / env.cpus
    let superpageCount := toU32 (internalIno / 2 ^ numInodesBits)
    let index := internalIno % 2 ^ numInodesBits
    let curr := s.words (novaGetInodeTable version (ino % env.cpus))
    if curr = 0 then (s, -Errno.einval.code, none)
    else
      match walk env extendable superpageCount s curr false with
      | (s, .error ret) => (s, ret, none)
      | (s, .ok (curr, extended)) =>
        (if extended then alternate s else s, 0, some (curr + index * novaInodeSize))

/-- `nova_get_inode_address` -/
def novaGetInodeAddress (ino version : Nat) (extendable extendAlternate : Bool) : InodeTables × Int × Option Nat :=
  s.getAddress env ino version extendable fun s =>
    if extendAlternate && env.metadataCsum then (s.getAddress env ino (version + 1) extendable id).1 else s

end InodeTables

end

/-! ### A new inode -/

/-- What of `struct nova_sb_info` a new inode needs. -/
structure InodeSb where
  maps : InodeMaps
  tables : InodeTables
  mapId : Nat

/-- `nova_new_nova_inode`: what it returns, and `*pi_addr`. -/
def novaNewNovaInode (benv : BallocEnv) (env : TableEnv) (s : InodeSb) : InodeSb × Nat × Option Nat :=
  let mapId := s.mapId
  let s := { s with mapId := (s.mapId + 1) % s.maps.cpus }
  match novaAllocUnusedInode benv s.maps mapId with
  | (maps, .error _) => ({ s with maps := maps }, 0, none)
  | (maps, .ok freeIno) =>
    match s.tables.novaGetInodeAddress env freeIno 0 true true with
    | (tables, ret, piAddr) => ({ s with maps := maps, tables := tables }, if ret ≠ 0 then 0 else freeIno, piAddr)

end Parfs
