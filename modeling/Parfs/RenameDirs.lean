/-
What a rename does before its transaction.

`nova_rename` appends a link change to the log of the inode, takes the name of the target out
of its directory, adds the new name, takes out the old one, and appends a link change to the
log of the target.  Link counts change on the way.  Every error leaves through one label that
undoes nothing.

A link change that the epoch allows is stored over the last one.  The tails are moved only by
the transaction that follows.
-/
import Parfs.Dir

namespace Parfs

open Lib

/-- The log of an inode as far as link changes go. -/
structure LinkLog where
  /-- `sih->last_link_change` -/
  lastLinkChange : Nat
  /-- the link change at an address -/
  changes : Nat → NovaLinkChangeEntry
  /-- `sih->trans_id` -/
  transId : Nat

/-- The inodes, by their numbers. -/
structure RenameFs where
  dirs : Nat → NovaDir
  links : Nat → LinkLog
  /-- `i_nlink` -/
  nlink : Nat → Nat

/-- What `nova_append_log_entry` made of a link change. -/
inductive AppendLink where
  /-- No room in a log; the first log may have taken it. -/
  | refused (e : Errno) (written : Option Nat)
  | appended (currP : Nat)
  deriving DecidableEq

/-- The call: its arguments, and what its parts meet on the way. -/
structure RenameInput where
  oldDir : Nat
  newDir : Nat
  oldInode : Nat
  newInode : Option Nat
  oldName : List UInt8
  newName : List UInt8
  /-- `S_ISDIR(old_inode->i_mode)` -/
  isDir : Bool
  /-- the error of the checks before anything is done -/
  early : Option Errno
  epochId : Nat
  /-- the time of the inodes -/
  time : Nat
  /-- the other fields of the inodes a link change records -/
  flags : Nat
  generation : Nat
  linkOld : AppendLink
  /-- `nova_verify_entry_csum` of the `..` entry -/
  fatherVerifies : Bool
  targetVerifies : Bool
  targetAppend : AppendDentry
  /-- `nova_alloc_dir_node` -/
  slab : Option Nat
  newAppend : AppendDentry
  oldVerifies : Bool
  oldAppend : AppendDentry
  linkNew : AppendLink

namespace RenameInput

variable (r : RenameInput)

/-- `inc_link` -/
def incLink : Int :=
  if r.isDir then (if r.newInode = none then 1 else 0) - (if r.oldDir = r.newDir then 1 else 0) else 0

/-- `dec_link` -/
def decLink : Int := if r.isDir ∧ ¬(r.oldDir = r.newDir ∧ r.incLink = 0) then -1 else 0

/-- `change_parent` -/
def changeParent : Bool := r.isDir && decide (r.oldDir ≠ r.newDir)

end RenameInput

/-- One step after another, as long as none fails. -/
def andThen {A B : Type} (x : RenameFs × Except Errno A) (k : RenameFs → A → RenameFs × Except Errno B) :
    RenameFs × Except Errno B :=
  match x with
  | (s, .error e) => (s, .error e)
  | (s, .ok a) => k s a

variable (env : BallocEnv) (r : RenameInput)

/-- Whether `nova_can_inplace_update_lcentry` -/
def novaCanInplaceUpdateLcentry (l : LinkLog) : Bool :=
  l.lastLinkChange ≠ 0 && (l.changes l.lastLinkChange).epochId = r.epochId

/-- `nova_update_link_change_entry` -/
def novaLinkChangeEntry (s : RenameFs) (ino : Nat) : NovaLinkChangeEntry :=
  ⟨s.nlink ino % 2 ^ 16, r.time, r.flags, r.generation, r.epochId, (s.links ino).transId⟩

/-- A store to a link change. -/
def LinkLog.setChange (l : LinkLog) (p : Nat) (e : NovaLinkChangeEntry) : LinkLog :=
  { l with changes := fun q => if q = p then e else l.changes q }

/-- `nova_append_link_change_entry` -/
def novaAppendLinkChangeEntry (s : RenameFs) (ino : Nat) (append : AppendLink) : RenameFs × Except Errno Unit :=
  let l := s.links ino
  let e := novaLinkChangeEntry r s ino
  let set (l : LinkLog) : RenameFs := { s with links := Function.update s.links ino l }
  if novaCanInplaceUpdateLcentry r l then
    (set { l.setChange l.lastLinkChange e with transId := l.transId + 1 }, .ok ())
  else
    match append with
    | .refused err none => (s, .error err)
    | .refused err (some currP) => (set (l.setChange currP e), .error err)
    | .appended currP =>
      (set { l.setChange currP e with lastLinkChange := currP, transId := l.transId + 1 }, .ok ())

/-- A directory operation of the call. -/
def dentryCall (s : RenameFs) (dir : Nat) (name : List UInt8) (linkChange : Int) (append : AppendDentry) : DentryCall :=
  ⟨name, linkChange, r.epochId, s.nlink dir, r.time, append⟩

/-- `nova_add_dentry` of the new name -/
def addNewDentry (s : RenameFs) (update : NovaInodeUpdate) : RenameFs × Except Errno NovaInodeUpdate :=
  let x := novaAddDentry env (s.dirs r.newDir) (dentryCall r s r.newDir r.newName r.incLink r.newAppend) r.oldInode r.slab
    update
  ({ s with dirs := Function.update s.dirs r.newDir x.1 }, x.2)

/-- `nova_remove_dentry` with `rename` set -/
def removeDentry (s : RenameFs) (dir : Nat) (name : List UInt8) (linkChange : Int) (append : AppendDentry)
    (verifies : Bool) (update : NovaInodeUpdate) : RenameFs × Except Errno NovaInodeUpdate :=
  let x := novaRemoveDentry env (s.dirs dir) (dentryCall r s dir name linkChange append) true verifies update
  ({ s with dirs := Function.update s.dirs dir x.1 }, x.2)

/-- A new value of `i_nlink`. -/
def RenameFs.setNlink (s : RenameFs) (ino n : Nat) : RenameFs := { s with nlink := Function.update s.nlink ino n }

/-- `drop_nlink` of the target, twice when it is a directory, as far as there are links. -/
def dropTarget (s : RenameFs) (ino : Nat) : RenameFs :=
  let s := if r.isDir ∧ s.nlink ino ≠ 0 then s.setNlink ino (s.nlink ino - 1) else s
  if s.nlink ino ≠ 0 then s.setNlink ino (s.nlink ino - 1) else s

/-- The target, once the names are in place. -/
def dropNewInode (s : RenameFs) : RenameFs × Except Errno Unit :=
  match r.newInode with
  | some ino => novaAppendLinkChangeEntry r (dropTarget r s ino) ino r.linkNew
  | none => (s, .ok ())

/-- The name of the target is taken out first. -/
def removeTarget (s : RenameFs) : RenameFs × Except Errno NovaInodeUpdate :=
  if r.newInode = none then (s, .ok ⟨0, 0, none, none⟩)
  else removeDentry env r s r.newDir r.newName 0 r.targetAppend r.targetVerifies ⟨0, 0, none, none⟩

/-- The directories: the target's name goes, the new one comes, the old one goes. -/
def renameDentries (s : RenameFs) : RenameFs × Except Errno Unit :=
  andThen (removeTarget env r s) fun s update =>
    andThen (addNewDentry env r s update) fun s update =>
      let s := if r.incLink > 0 then s.setNlink r.newDir (s.nlink r.newDir + 1) else s
      let tail := if r.oldDir = r.newDir then update.tail else 0
      andThen (removeDentry env r s r.oldDir r.oldName r.decLink r.oldAppend r.oldVerifies ⟨tail, 0, none, none⟩)
        fun s _ =>
          dropNewInode r (if r.decLink < 0 then s.setNlink r.oldDir (s.nlink r.oldDir - 1) else s)

/-- `nova_rename` up to `nova_create_rename_transaction`; `nova_update_inode` and what else comes
after does not fail. -/
def novaRename (s : RenameFs) : RenameFs × Except Errno Unit :=
  match r.early with
  | some e => (s, .error e)
  | none =>
    andThen (novaAppendLinkChangeEntry r s r.oldInode r.linkOld) fun s _ =>
      if r.changeParent ∧ ¬ r.fatherVerifies then (s, .error .eio) else renameDentries env r s

end Parfs
