/-
Listing a directory.

`nova_readdir_fast` goes through the log and lists the dentries that are not marked, each of
them one step late: when it comes to the next one, or to the end.  A listing that had no room
goes on at the dentry that was held back, which is looked up in the tree by its hash.
`nova_readdir_slow` goes through the tree.

The log is the list of its entries up to the tail.  What is not a dentry is passed over.
-/
import Parfs.Dir

namespace Parfs

open Lib

/-- `READDIR_END` -/
def readdirEnd : Nat := 2 ^ 64 - 1

/-- An entry of the log of a directory. -/
inductive DirLogEntry where
  | setAttr
  | linkChange
  /-- the dentry at this address -/
  | dirLog (p : Nat)
  deriving DecidableEq, Repr

/-- A directory with its log. -/
structure ListedDir where
  dir : NovaDir
  /-- `sih->log_head` -/
  logHead : Nat
  /-- the entries up to `sih->log_tail` -/
  log : List DirLogEntry
  /-- the flag of the dentry at an address -/
  reassigned : Nat → Bool

/-! ### Marking dentries -/

/-- `nova_reassign_logentry` of `DIR_LOG` -/
def novaReassignLogentry (f : ListedDir) (p : Nat) : ListedDir :=
  { f with reassigned := fun q => if q = p then true else f.reassigned q }

/-- `nova_invalidate_logentry` of `DIR_LOG` -/
def novaInvalidateLogentry (f : ListedDir) (p : Nat) : ListedDir :=
  { f with dir := f.dir.setDentry p { f.dir.dentries p with invalid := true } }

/-- `nova_invalidate_dentries`; `sEpochId` is `sbi->s_epoch_id`, `verifies` what
`nova_verify_entry_csum` says of the created dentry. -/
def novaInvalidateDentries (sEpochId : Nat) (verifies : Bool) (f : ListedDir) (update : NovaInodeUpdate) :
    ListedDir :=
  match update.createDentry, update.deleteDentry with
  | some create, some delete =>
    let f := novaReassignLogentry f create
    if !verifies then f
    else if (f.dir.dentries create).epochId ≠ sEpochId then f
    else novaInvalidateLogentry (novaInvalidateLogentry f create) delete
  | _, _ => f

/-! ### Listings -/

/-- What the caller gets of one name. -/
structure Dirent where
  name : List UInt8
  ino : Nat
  type : Nat
  deriving DecidableEq, Repr

/-- `struct dir_context`: the position, the room left in the caller's buffer and what is in it. -/
structure DirContext where
  pos : Nat
  room : Nat
  emitted : List Dirent
  deriving DecidableEq, Repr

/-- `IF2DT` -/
def if2dt (mode : Nat) : Nat := mode / 4096 % 16

/-- `dir_emit`, unless there is no room -/
def dirEmit (ctx : DirContext) (e : Dirent) : Option DirContext :=
  if ctx.room = 0 then none else some { ctx with room := ctx.room - 1, emitted := ctx.emitted ++ [e] }

/-- What a listing reads besides the directory. -/
structure ReaddirEnv where
  /-- `nova_verify_entry_csum` of the dentry at an address -/
  verifies : Nat → Bool
  /-- `i_mode` at the address `nova_get_inode_address` finds -/
  childMode : Nat → Except Errno Nat

/-- The variables of the loop of `nova_readdir_fast`. -/
structure ReaddirFast where
  ctx : DirContext
  pos : Nat
  ino : Nat
  /-- the name in `prev_entryc` and the mode of `prev_child_pi` -/
  prev : Option (List UInt8 × Nat)
  deriving DecidableEq, Repr

variable (env : BallocEnv) (renv : ReaddirEnv)

/-- Whether a dentry is listed. -/
def ListedDir.lists (f : ListedDir) (p : Nat) : Bool :=
  decide ((f.dir.dentries p).ino > 0) && !(f.dir.dentries p).invalid && !f.reassigned p

/-- The previous dentry goes out under the inode number at hand. -/
def ReaddirFast.emitPrev (s : ReaddirFast) (ino : Nat) : Option DirContext :=
  match s.prev with
  | some (name, mode) => dirEmit s.ctx ⟨name, ino, if2dt mode⟩
  | none => some s.ctx

/-- The loop of `nova_readdir_fast`, and what comes after it. -/
def novaReaddirFastLoop (f : ListedDir) : List DirLogEntry → ReaddirFast → DirContext × Except Errno Unit
  | [], s =>
    match s.emitPrev s.ino with
    | some ctx => ({ ctx with pos := readdirEnd }, .ok ())
    | none => (s.ctx, .ok ())
  | .setAttr :: es, s => novaReaddirFastLoop f es s
  | .linkChange :: es, s => novaReaddirFastLoop f es s
  | .dirLog p :: es, s =>
    let entry := f.dir.dentries p
    if !renv.verifies p then (s.ctx, .error .eio)
    else if f.lists p then
      let pos := (bkdrHash entry.name).toNat
      match renv.childMode entry.ino with
      | .error e => ({ s.ctx with pos := readdirEnd }, .error e)
      | .ok mode =>
        match s.emitPrev entry.ino with
        | none => (s.ctx, .ok ())
        | some ctx => novaReaddirFastLoop f es ⟨{ ctx with pos := pos }, pos, entry.ino, some (entry.name, mode)⟩
    else novaReaddirFastLoop f es { s with ctx := { s.ctx with pos := s.pos } }

/-- `nova_find_next_dentry_addr` -/
def novaFindNextDentryAddr (d : NovaDir) (pos : Nat) : Option Nat :=
  match novaFindDirnode env d.rbTree pos with
  | (true, some retNode) => if pos = retNode.hash then some retNode.direntry else none
  | _ => none

/-- The log from a dentry on. -/
def ListedDir.logFrom (f : ListedDir) (p : Nat) : List DirLogEntry := f.log.dropWhile fun e => e ≠ .dirLog p

/-- Where `nova_readdir_fast` starts. -/
def readdirStart (f : ListedDir) (pos : Nat) : Option (List DirLogEntry) :=
  if pos = 0 then some f.log
  else if pos = readdirEnd then none
  else (novaFindNextDentryAddr env f.dir pos).map f.logFrom

/-- `nova_readdir_fast` -/
def novaReaddirFast (f : ListedDir) (ctx : DirContext) : DirContext × Except Errno Unit :=
  if f.logHead = 0 then (ctx, .error .enospc)
  else
    match readdirStart env f ctx.pos with
    | none => (ctx, .ok ())
    | some es => novaReaddirFastLoop renv f es ⟨ctx, ctx.pos, 0, none⟩

/-- The loop of `nova_readdir_slow_rbtree`, and what comes after it; it does not get past a
dentry without an inode. -/
def novaReaddirSlowLoop (f : ListedDir) : List RangeNode → DirContext → Option (DirContext × Except Errno Unit)
  | [], ctx => some ({ ctx with pos := readdirEnd }, .ok ())
  | curr :: nodes, ctx =>
    let entry := f.dir.dentries curr.direntry
    if !renv.verifies curr.direntry then some (ctx, .error .eio)
    else
      let ctx := { ctx with pos := (bkdrHash entry.name).toNat }
      if entry.ino = 0 then none
      else
        match renv.childMode entry.ino with
        | .error e => some ({ ctx with pos := readdirEnd }, .error e)
        | .ok mode =>
          match dirEmit ctx ⟨entry.name, entry.ino, if2dt mode⟩ with
          | none => some (ctx, .ok ())
          | some ctx => novaReaddirSlowLoop f nodes ctx

/-- `nova_readdir_slow_rbtree` -/
def novaReaddirSlowRbtree (f : ListedDir) (ctx : DirContext) : Option (DirContext × Except Errno Unit) :=
  let nodes := f.dir.rbTree.toList
  if ctx.pos = 0 then novaReaddirSlowLoop renv f nodes ctx
  else if ctx.pos = readdirEnd then some (ctx, .ok ())
  else
    match novaFindDirnode env f.dir.rbTree ctx.pos with
    | (true, some curr) =>
      novaReaddirSlowLoop renv f (if ctx.pos = curr.hash then nodes.dropWhile fun n => n.addr ≠ curr.addr else []) ctx
    | _ => novaReaddirSlowLoop renv f [] ctx

end Parfs
