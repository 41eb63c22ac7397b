/-
Directories.

A directory is a log of dentries and, in DRAM, a tree that leads from the hash of a name to
the dentry of that name in the log.  The nodes of the tree are range nodes: the hash and the
dentry take the words of a range.  A lookup compares hashes only.  Adding a name appends a
dentry and then inserts a node; removing it erases the node, and then checks the dentry and
marks it, in place or by another dentry.

What the log does is left to `AppendDentry`: where the dentry went, or the error.  Positions
in the replica of the log are left out.
-/
import Parfs.Balloc
import Parfs.Inplace

namespace Parfs

open Lib

/-- `BKDRHash`; a `char` is unsigned in the kernel. -/
def bkdrHash (str : List UInt8) : UInt64 := str.foldl (fun hash c => hash * 131 + c.toUInt64) 0

/-! ### The tree -/

/-- The node in its directory form: `hash` -/
def RangeNode.hash (n : RangeNode) : Nat := n.rangeLow

/-- The node in its directory form: `direntry` -/
def RangeNode.direntry (n : RangeNode) : Nat := n.rangeHigh

variable (env : BallocEnv)

/-- `nova_rbtree_compare_rangenode` of `NODE_DIR` -/
def novaRbtreeCompareDirnode (key : Nat) (curr : RangeNode) : Ordering :=
  if key < curr.hash then .lt else if key > curr.hash then .gt else .eq

/-- `nova_find_range_node` of `NODE_DIR`: whether the key was found, and `*ret_node`. -/
def novaFindDirnode (tree : RbTree RangeNode) (key : Nat) : Bool × Option RangeNode :=
  match RbTree.descend (novaRbtreeCompareDirnode key) none tree with
  | (found, some curr) =>
    if !novaRangeNodeChecksumOk env curr then (false, none) else (found, some curr)
  | (found, none) => (found, none)

/-- `nova_insert_range_node` of `NODE_DIR` -/
def novaInsertDirnode (tree : RbTree RangeNode) (newNode : RangeNode) : Except Errno (RbTree RangeNode) :=
  match RbTree.link (novaRbtreeCompareDirnode newNode.rangeLow) newNode tree with
  | some t => .ok (env.rb.insertColor t)
  | none => .error .einval

/-! ### The directory -/

/-- A dentry of the log, with the flag `nova_update_old_dentry` sets. -/
structure LogDentry extends NovaDentry where
  invalid : Bool
  deriving DecidableEq, Repr

/-- `struct nova_inode_info_header` of a directory, and its log as far as dentries go. -/
structure NovaDir where
  rbTree : RbTree RangeNode
  lastDentry : Nat
  transId : Nat
  logTail : Nat
  /-- the dentry at an address -/
  dentries : Nat → LogDentry

/-- A store to a dentry. -/
def NovaDir.setDentry (d : NovaDir) (p : Nat) (e : LogDentry) : NovaDir :=
  { d with dentries := fun q => if q = p then e else d.dentries q }

/-- `nova_find_dentry` -/
def novaFindDentry (d : NovaDir) (name : List UInt8) : Option Nat :=
  let hash := (bkdrHash name).toNat
  match novaFindDirnode env d.rbTree hash with
  | (true, some retNode) => if hash = retNode.hash then some retNode.direntry else none
  | _ => none

/-- `nova_insert_dir_tree`; `slab` is what `nova_alloc_dir_node` returns. -/
def novaInsertDirTree (d : NovaDir) (name : List UInt8) (direntry : Nat) (slab : Option Nat) :
    NovaDir × Except Errno Unit :=
  match slab with
  | none => (d, .error .enomem)
  | some addr =>
    match novaInsertDirnode env d.rbTree (novaFreshNode env addr (bkdrHash name).toNat direntry) with
    | .error e => (d, .error e)
    | .ok tree => ({ d with rbTree := tree }, .ok ())

/-- `strncmp` says that the first `n` characters differ, in strings that have as many. -/
def strncmp : List UInt8 → List UInt8 → Nat → Bool
  | a :: as, b :: bs, n + 1 => a ≠ b || (a ≠ 0 && strncmp as bs n)
  | _, _, _ => false

/-- `nova_check_dentry_match`: whether it returns nonzero. -/
def novaCheckDentryMatch (dentry : LogDentry) (name : List UInt8) : Bool :=
  dentry.name.length ≠ name.length || strncmp dentry.name name name.length

/-- `nova_remove_dir_tree`, but not in a replay; `verifies` is what `nova_verify_entry_csum`
says of the dentry.  The node is gone before anything about its dentry is checked. -/
def novaRemoveDirTree (d : NovaDir) (name : List UInt8) (verifies : Bool) : NovaDir × Except Errno Nat :=
  match novaFindDirnode env d.rbTree (bkdrHash name).toNat with
  | (true, some retNode) =>
    let entry := retNode.direntry
    let erased := { d with rbTree := env.rb.erase (fun n => n.addr == retNode.addr) d.rbTree }
    if !verifies then (erased, .error .einval)
    else
      let entryc := d.dentries entry
      if entryc.ino = 0 ∨ entryc.invalid ∨ novaCheckDentryMatch entryc name then (erased, .error .einval)
      else (erased, .ok entry)
  | _ => (d, .error .einval)

/-! ### Adding and removing a name -/

/-- What `nova_append_log_entry` made of a dentry. -/
inductive AppendDentry where
  /-- No room in a log; the first log may have taken it. -/
  | refused (e : Errno) (written : Option Nat)
  | appended (currP : Nat)
  deriving DecidableEq

/-- What a call brings along: the dentry's name, the directory's inode, the link change, and
what the memory and the log will do. -/
structure DentryCall where
  name : List UInt8
  linkChange : Int
  epochId : Nat
  /-- `dir->i_nlink` -/
  nlink : Nat
  /-- `dir->i_mtime` -/
  mtime : Nat
  append : AppendDentry
  deriving DecidableEq

/-- `struct nova_inode_update`, of a directory -/
structure NovaInodeUpdate where
  tail : Nat
  currEntry : Nat
  createDentry : Option Nat
  deleteDentry : Option Nat
  deriving DecidableEq, Repr

/-- What the call puts into a dentry besides the name and the inode. -/
def DentryCall.info (c : DentryCall) (d : NovaDir) : DentryUpdate := ⟨c.epochId, d.transId, c.mtime, c.nlink, c.linkChange⟩

/-- `nova_update_new_dentry`, into a zeroed entry -/
def novaUpdateNewDentry (d : NovaDir) (c : DentryCall) (ino : Nat) : LogDentry where
  name := c.name
  ino := ino
  deLen := novaDirLogRecLen c.name.length
  linksCount := (c.info d).linksCount
  mtime := c.mtime
  epochId := c.epochId
  transId := d.transId
  invalid := false

/-- `nova_append_dentry` -/
def novaAppendDentry (d : NovaDir) (c : DentryCall) (ino : Nat) (update : NovaInodeUpdate) :
    NovaDir × Except Errno NovaInodeUpdate :=
  match c.append with
  | .refused e none => (d, .error e)
  | .refused e (some currP) => (d.setDentry currP (novaUpdateNewDentry d c ino), .error e)
  | .appended currP =>
    (d.setDentry currP (novaUpdateNewDentry d c ino),
      .ok { update with currEntry := currP, tail := currP + novaDirLogRecLen c.name.length })

/-- `nova_add_dentry`; `c.linkChange` is `inc_link`. -/
def novaAddDentry (d : NovaDir) (c : DentryCall) (ino : Nat) (slab : Option Nat) (update : NovaInodeUpdate) :
    NovaDir × Except Errno NovaInodeUpdate :=
  if c.name.length = 0 then (d, .error .einval)
  else
    match novaAppendDentry d c ino update with
    | (d, .error e) => (d, .error e)
    | (d, .ok update) =>
      let inserted := novaInsertDirTree env { d with lastDentry := update.currEntry } c.name update.currEntry slab
      ({ inserted.1 with transId := inserted.1.transId + 1 }, inserted.2.map fun _ => update)

/-- `nova_inplace_update_dentry`: the dentry is marked where it stands. -/
def novaInplaceUpdateDentry (d : NovaDir) (c : DentryCall) (dentry : LogDentry) : LogDentry :=
  { dentry with
    epochId := c.epochId
    transId := d.transId
    ino := 0
    invalid := true
    mtime := c.mtime
    linksCount := (c.info d).linksCount }

/-- `nova_remove_dentry`; `c.linkChange` is `dec_link`. -/
def novaRemoveDentry (d : NovaDir) (c : DentryCall) (rename verifies : Bool) (update : NovaInodeUpdate) :
    NovaDir × Except Errno NovaInodeUpdate :=
  let update := { update with createDentry := none, deleteDentry := none }
  if c.name.length = 0 then (d, .error .einval)
  else
    match novaRemoveDirTree env d c.name verifies with
    | (d, .error e) => (d, .error e)
    | (d, .ok oldDentry) =>
      if !rename ∧ (d.dentries oldDentry).epochId = c.epochId then
        let marked := d.setDentry oldDentry (novaInplaceUpdateDentry d c (d.dentries oldDentry))
        ({ marked with lastDentry := oldDentry, transId := d.transId + 1 },
          .ok (if update.tail = 0 then { update with tail := d.logTail } else update))
      else
        match novaAppendDentry d c 0 update with
        | (d, .error e) => (d, .error e)
        | (d, .ok update) =>
          ({ d with lastDentry := update.currEntry, transId := d.transId + 1 },
            .ok { update with createDentry := some oldDentry, deleteDentry := some update.currEntry })

end Parfs
