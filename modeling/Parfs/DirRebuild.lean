/-
Rebuilding the inode of a directory.

When a directory is used for the first time after a mount, its log is replayed into a header
that knows nothing yet: dentries that are not invalid put their names into the tree or take
them out, and the fields of the inode are those of the entry with the largest transaction.

The other half is the directory that is in use: the callers of `nova_add_dentry` and
`nova_remove_dentry` with what each of them does to `i_nlink`, attribute and link changes,
which go over the last entry of their kind when the epoch allows it, and snapshots.  A call that
fails has no result here.

The log is the list of its entries up to the tail.  This is a mount that is not one of a
snapshot.  What a call does to the inodes of its children is left out.
-/
import Parfs.Readdir
import Parfs.Rebuild
import Parfs.RenameDirs

namespace Parfs

open Lib

/-- An entry of the log of a directory, with its address. -/
inductive DirRecord where
  | setAttr (p : Nat)
  | linkChange (p : Nat)
  | dirLog (p : Nat)
  deriving DecidableEq, Repr

def DirRecord.entry : DirRecord → DirLogEntry
  | setAttr _ => .setAttr
  | linkChange _ => .linkChange
  | dirLog p => .dirLog p

/-- The dentry at an address, if the entry is one. -/
def DirRecord.dentry : DirRecord → Option Nat
  | setAttr _ => none
  | linkChange _ => none
  | dirLog p => some p

/-! ### The rebuild -/

/-- What is left of a directory in persistent memory. -/
structure DirImage where
  /-- what `nova_init_inode_rebuild` copies -/
  pi : NovaInodeRebuild
  logHead : Nat
  logTail : Nat
  log : List DirRecord
  dentries : Nat → LogDentry
  changes : Nat → NovaLinkChangeEntry
  attrs : Nat → NovaSetattrLogentry

/-- The header and the variables of `nova_rebuild_dir_inode_tree`. -/
structure DirRebuild where
  dir : NovaDir
  reb : NovaInodeRebuild
  lastSetattr : Nat
  lastLinkChange : Nat

/-- `nova_rebuild_dir_time_and_size` -/
def novaRebuildDirTimeAndSize (reb : NovaInodeRebuild) (entryc : LogDentry) : NovaInodeRebuild :=
  { reb with iCtime := entryc.mtime, iMtime := entryc.mtime, iLinksCount := entryc.linksCount }

/-- The fields `nova_apply_setattr_entry` sets; a directory has no data to truncate. -/
def NovaInodeRebuild.applySetattr (reb : NovaInodeRebuild) (entry : NovaSetattrLogentry) : NovaInodeRebuild :=
  { reb with iMode := entry.mode, iUid := entry.uid, iGid := entry.gid, iAtime := entry.atime }

/-- `nova_reassign_last_dentry` -/
def novaReassignLastDentry (d : NovaDir) (currP : Nat) : NovaDir :=
  if d.lastDentry = 0 then { d with lastDentry := currP }
  else if (d.dentries currP).transId ≥ (d.dentries d.lastDentry).transId then { d with lastDentry := currP }
  else d

section

variable (env : BallocEnv)

/-- `nova_replay_add_dentry` -/
def novaReplayAddDentry (d : NovaDir) (currP : Nat) (slab : Option Nat) : NovaDir × Except Errno Unit :=
  let entryc := d.dentries currP
  if entryc.name.length = 0 then (d, .error .einval) else novaInsertDirTree env d entryc.name currP slab

/-- `nova_replay_remove_dentry`: `nova_remove_dir_tree` in a replay, whose error is dropped. -/
def novaReplayRemoveDentry (d : NovaDir) (name : List UInt8) : NovaDir :=
  match novaFindDirnode env d.rbTree (bkdrHash name).toNat with
  | (true, some retNode) => { d with rbTree := env.rb.erase (fun n => n.addr == retNode.addr) d.rbTree }
  | _ => d

/-- `nova_rebuild_handle_dentry` -/
def novaRebuildHandleDentry (s : DirRebuild) (currP : Nat) (slab : Option Nat) : DirRebuild × Except Errno Unit :=
  let d := novaReassignLastDentry s.dir currP
  let entryc := d.dentries currP
  let x : NovaDir × Except Errno Unit :=
    if entryc.invalid then (d, .ok ())
    else if entryc.ino > 0 then novaReplayAddDentry env d currP slab
    else (novaReplayRemoveDentry env d entryc.name, .ok ())
  match x with
  | (d, .error e) => ({ s with dir := d }, .error e)
  | (d, .ok ()) =>
    let reb := if entryc.transId ≥ s.reb.transId then
      { novaRebuildDirTimeAndSize s.reb entryc with transId := entryc.transId } else s.reb
    ({ s with dir := d, reb := reb }, .ok ())

/-- The case `LINK_CHANGE` of the switch. -/
def DirRebuild.linkChange (s : DirRebuild) (entry : NovaLinkChangeEntry) (currP : Nat) : DirRebuild :=
  let reb := if entry.transId ≥ s.reb.transId then
    { novaApplyLinkChangeEntry s.reb entry with transId := entry.transId } else s.reb
  { s with reb := reb, lastLinkChange := currP }

/-- The loop; `slab p used` is what `nova_alloc_dir_node` returns for the dentry at `p` while the
nodes at `used` are taken.  An entry that does not verify ends the rebuild without an error, and
without what comes after the loop. -/
def rebuildDirLoop (img : DirImage) (verifies : DirRecord → Bool) (slab : Nat → List Nat → Option Nat) :
    List DirRecord → DirRebuild → DirRebuild × Except Errno Bool
  | [], s => (s, .ok true)
  | r :: rs, s =>
    if !verifies r then (s, .ok false)
    else
      match r with
      | .setAttr p =>
        rebuildDirLoop img verifies slab rs { s with reb := s.reb.applySetattr (img.attrs p), lastSetattr := p }
      | .linkChange p => rebuildDirLoop img verifies slab rs (s.linkChange (img.changes p) p)
      | .dirLog p =>
        match novaRebuildHandleDentry env s p (slab p (s.dir.rbTree.toList.map RangeNode.addr)) with
        | (s, .error e) => (s, .error e)
        | (s, .ok ()) => rebuildDirLoop img verifies slab rs s

/-- `nova_rebuild_inode_start`, from a header `nova_init_header` made. -/
def rebuildDirStart (img : DirImage) : DirRebuild where
  dir := ⟨.nil, 0, 0, img.logTail, img.dentries⟩
  reb := { img.pi with transId := 0 }
  lastSetattr := 0
  lastLinkChange := 0

/-- `nova_rebuild_dir_inode_tree` -/
def novaRebuildDirInodeTree (img : DirImage) (verifies : DirRecord → Bool) (slab : Nat → List Nat → Option Nat) :
    DirRebuild × Except Errno Unit :=
  let s := rebuildDirStart img
  if img.logHead = 0 then (s, .error .enospc)
  else
    match rebuildDirLoop env img verifies slab img.log s with
    | (s, .error e) => (s, .error e)
    | (s, .ok false) => (s, .ok ())
    | (s, .ok true) => ({ s with dir := { s.dir with transId := s.reb.transId + 1 } }, .ok ())

end

/-! ### The directory in use -/

/-- A directory in use, with its log. -/
structure LiveDir where
  dir : NovaDir
  logHead : Nat
  log : List DirRecord
  /-- the flag of the dentry at an address -/
  reassigned : Nat → Bool
  changes : Nat → NovaLinkChangeEntry
  attrs : Nat → NovaSetattrLogentry
  /-- the inode in persistent memory, but for its log -/
  pi : NovaInodeRebuild
  lastLinkChange : Nat
  lastSetattr : Nat
  /-- `dir->i_nlink` -/
  nlink : Nat
  mode : Nat
  uid : Nat
  gid : Nat
  /-- `sbi->s_epoch_id` -/
  sEpochId : Nat
  /-- which of the names are directories -/
  subdirs : Finset (List UInt8)

/-- What a rebuild is going to find. -/
def LiveDir.image (s : LiveDir) : DirImage :=
  ⟨s.pi, s.logHead, s.dir.logTail, s.log, s.dir.dentries, s.changes, s.attrs⟩

/-- The directory as listings have it. -/
def LiveDir.listed (s : LiveDir) : ListedDir := ⟨s.dir, s.logHead, s.log.map DirRecord.entry, s.reassigned⟩

/-- `NOVA_LINK_MAX` -/
def novaLinkMax : Nat := 32000

/-- `ATTR_SIZE` -/
def attrSize : Nat := 8

/-- The name of a call, the time, and what the log will make of its dentry. -/
structure NameCall where
  name : List UInt8
  mtime : Nat
  append : AppendDentry
  deriving DecidableEq

namespace LiveDir

variable (env : BallocEnv) (s : LiveDir)

/-- A call of `nova_add_dentry` or `nova_remove_dentry`. -/
def call (a : NameCall) (linkChange : Int) : DentryCall :=
  ⟨a.name, linkChange, s.sEpochId, s.nlink, a.mtime, a.append⟩

/-- The directory once a call succeeded; the dentry it appended is in the log, not reassigned. -/
def logged (d : NovaDir) (p : Option Nat) : LiveDir :=
  { s with
    dir := d
    log := s.log ++ p.toList.map .dirLog
    reassigned := fun q => if p = some q then false else s.reassigned q }

/-- `nova_add_dentry` -/
def addDentry (a : NameCall) (incLink : Int) (ino : Nat) (slab : Option Nat) (update : NovaInodeUpdate) :
    Option (LiveDir × NovaInodeUpdate) :=
  match novaAddDentry env s.dir (s.call a incLink) ino slab update with
  | (_, .error _) => none
  | (d, .ok u) => some (s.logged d (some u.currEntry), u)

/-- `nova_remove_dentry` -/
def removeDentry (a : NameCall) (decLink : Int) (rename verifies : Bool) (update : NovaInodeUpdate) :
    Option (LiveDir × NovaInodeUpdate) :=
  match novaRemoveDentry env s.dir (s.call a decLink) rename verifies update with
  | (_, .error _) => none
  | (d, .ok u) => some (s.logged d u.deleteDentry, u)

/-- `nova_invalidate_dentries` -/
def invalidate (verifies : Bool) (update : NovaInodeUpdate) : LiveDir :=
  let f := novaInvalidateDentries s.sEpochId verifies s.listed update
  { s with dir := f.dir, reassigned := f.reassigned }

def tailTo (tail : Nat) : LiveDir := { s with dir := { s.dir with logTail := tail } }

/-- The tail moves past what a call appended. -/
def commit (update : NovaInodeUpdate) : LiveDir := s.tailTo update.tail

/-- `drop_nlink`; `i_nlink` is an `unsigned int` -/
def dropNlink : LiveDir := { s with nlink := (s.nlink + (2 ^ 32 - 1)) % 2 ^ 32 }

/-- The update a call starts from. -/
def noUpdate : NovaInodeUpdate := ⟨0, 0, none, none⟩

/-! ### Names -/

/-- `nova_create`, `nova_mknod`, `nova_symlink` and `nova_link` -/
def novaCreate (a : NameCall) (ino : Nat) (slab : Option Nat) : Option LiveDir :=
  (s.addDentry env a 0 ino slab noUpdate).map fun x => x.1.commit x.2

/-- `nova_mkdir` -/
def novaMkdir (a : NameCall) (ino : Nat) (slab : Option Nat) : Option LiveDir :=
  if s.nlink ≥ novaLinkMax then none
  else
    (s.addDentry env a 1 ino slab noUpdate).map fun x =>
      { x.1.commit x.2 with nlink := s.nlink + 1, subdirs := insert a.name s.subdirs }

/-- `nova_unlink`; `verifies` is of the removal and of the invalidation. -/
def novaUnlink (a : NameCall) (verifies : Bool × Bool) : Option LiveDir :=
  (s.removeDentry env a 0 false verifies.1 noUpdate).map fun x => (x.1.commit x.2).invalidate verifies.2 x.2

/-- `nova_rmdir` of a directory that is empty. -/
def novaRmdir (a : NameCall) (verifies : Bool × Bool) : Option LiveDir :=
  (s.removeDentry env a (-1) false verifies.1 noUpdate).map fun x =>
    let t := if s.nlink ≠ 0 then x.1.dropNlink else x.1
    { (t.commit x.2).invalidate verifies.2 x.2 with subdirs := s.subdirs.erase a.name }

/-- The side of `nova_rename` where the name goes to: what it replaces, and the new dentry. -/
structure RenameTo where
  new : NameCall
  ino : Nat
  slab : Option Nat
  /-- how the removal of the name's old dentry is logged, and what verifies, if there is one -/
  target : Option (AppendDentry × Bool × Bool)
  deriving DecidableEq

/-- The side where it comes from. -/
structure RenameFrom where
  old : NameCall
  verifies : Bool × Bool
  deriving DecidableEq

/-- The old dentry of the new name goes. -/
def removeTarget (r : RenameTo) : Option (LiveDir × NovaInodeUpdate) :=
  match r.target with
  | some (append, verifies, _) => s.removeDentry env { r.new with append := append } 0 true verifies noUpdate
  | none => some (s, noUpdate)

/-- The new name comes, and `i_nlink` goes up. -/
def addTo (r : RenameTo) (incLink : Int) : Option (LiveDir × NovaInodeUpdate) :=
  (s.removeTarget env r).bind fun x =>
    (x.1.addDentry env r.new incLink r.ino r.slab x.2).map fun y =>
      (if incLink > 0 then { y.1 with nlink := y.1.nlink + 1 } else y.1, y.2)

/-- The old name goes, and `i_nlink` goes down. -/
def removeFrom (r : RenameFrom) (decLink : Int) (tail : Nat) : Option (LiveDir × NovaInodeUpdate) :=
  (s.removeDentry env r.old decLink true r.verifies.1 ⟨tail, 0, none, none⟩).map fun x =>
    (if decLink < 0 then x.1.dropNlink else x.1, x.2)

/-- The dentries of the name that was replaced are invalidated. -/
def invalidateTarget (r : RenameTo) (update : NovaInodeUpdate) : LiveDir :=
  match r.target with
  | some (_, _, verifies) => s.invalidate verifies update
  | none => s

/-- `EMLINK` -/
def linkMaxReached (isDir : Bool) (r : RenameTo) : Bool :=
  isDir && r.target.isNone && decide (s.nlink ≥ novaLinkMax)

/-- `nova_rename` from another directory. -/
def renameInto (isDir : Bool) (r : RenameTo) : Option LiveDir :=
  if s.linkMaxReached isDir r then none
  else
    (s.addTo env r (if isDir ∧ r.target = none then 1 else 0)).map fun x =>
      { (x.1.commit x.2).invalidateTarget r x.2 with
        subdirs := if isDir then insert r.new.name s.subdirs else s.subdirs }

/-- `nova_rename` to another directory. -/
def renameOut (isDir : Bool) (r : RenameFrom) : Option LiveDir :=
  (s.removeFrom env r (if isDir then -1 else 0) 0).map fun x =>
    { (x.1.commit x.2).invalidate r.verifies.2 x.2 with
      subdirs := if isDir then s.subdirs.erase r.old.name else s.subdirs }

/-- `inc_link` in one directory -/
def incLinkWithin (isDir : Bool) (r : RenameTo) : Int := if isDir then (if r.target = none then 1 else 0) - 1 else 0

/-- `nova_rename` within the directory. -/
def renameWithin (isDir : Bool) (new : RenameTo) (old : RenameFrom) : Option LiveDir :=
  if s.linkMaxReached isDir new then none
  else
    let incLink := incLinkWithin isDir new
    let decLink := if isDir ∧ incLink ≠ 0 then -1 else 0
    (s.addTo env new incLink).bind fun x =>
      (x.1.removeFrom env old decLink x.2.tail).map fun y =>
        { ((y.1.commit y.2).invalidateTarget new x.2).invalidate old.verifies.2 y.2 with
          subdirs := if isDir then insert new.new.name (s.subdirs.erase old.old.name) else s.subdirs }

/-! ### The inode -/

/-- `nova_can_inplace_update_setattr` -/
def canInplaceUpdateSetattr : Bool :=
  s.lastSetattr ≠ 0 && (s.attrs s.lastSetattr).attr &&& attrSize = 0 &&
    decide ((s.attrs s.lastSetattr).epochId = s.sEpochId)

/-- `nova_update_setattr_entry`; the size is the directory's. -/
def setattrEntry (e : NovaSetattrLogentry) : NovaSetattrLogentry :=
  { e with mode := s.mode, uid := s.uid, gid := s.gid, epochId := s.sEpochId, transId := s.dir.transId }

/-- A store to a setattr entry. -/
def setAttrEntry (p : Nat) (e : NovaSetattrLogentry) : LiveDir := { s with attrs := Function.update s.attrs p e }

/-- `nova_handle_setattr_operation`, and what `nova_notify_change` does before and after it; `e`
brings the new values. -/
def novaNotifyChange (e : NovaSetattrLogentry) (append : AppendLink) : Option LiveDir :=
  let s := { s with mode := e.mode, uid := e.uid, gid := e.gid }
  let t := if e.attr &&& attrSize = 0 ∧ s.canInplaceUpdateSetattr then
      some (s.setAttrEntry s.lastSetattr (s.setattrEntry e))
    else
      match append with
      | .refused _ _ => none
      | .appended p =>
        some { (s.setAttrEntry p (s.setattrEntry e)).tailTo (p + novaGetLogEntrySize .setAttr) with
          log := s.log ++ [.setAttr p]
          lastSetattr := p }
  t.map fun t => { t with dir := { t.dir with transId := t.dir.transId + 1 } }

/-- `nova_update_link_change_entry` -/
def linkChangeEntry (e : NovaLinkChangeEntry) : NovaLinkChangeEntry :=
  { e with links := s.nlink % 2 ^ 16, epochId := s.sEpochId, transId := s.dir.transId }

/-- A store to a link change. -/
def setChange (p : Nat) (e : NovaLinkChangeEntry) : LiveDir := { s with changes := Function.update s.changes p e }

/-- `nova_append_link_change_entry`; `e` brings the time, the flags and the generation. -/
def appendLinkChange (e : NovaLinkChangeEntry) (append : AppendLink) : Option LiveDir :=
  let t := if s.lastLinkChange ≠ 0 ∧ (s.changes s.lastLinkChange).epochId = s.sEpochId then
      some (s.setChange s.lastLinkChange (s.linkChangeEntry e))
    else
      match append with
      | .refused _ _ => none
      | .appended p =>
        some { (s.setChange p (s.linkChangeEntry e)).tailTo (p + novaGetLogEntrySize .linkChange) with
          log := s.log ++ [.linkChange p]
          lastLinkChange := p }
  t.map fun t => { t with dir := { t.dir with transId := t.dir.transId + 1 } }

/-- `FS_IOC_SETFLAGS` and `FS_IOC_SETVERSION` of `nova_ioctl` -/
def ioctlSet (e : NovaLinkChangeEntry) (append : AppendLink) : Option LiveDir :=
  (s.appendLinkChange e append).map fun t => { t with dir := { t.dir with transId := t.dir.transId + 1 } }

/-- The address of the entry `..`, behind that of `.` -/
def fatherEntry : Nat := s.logHead + novaDirLogRecLen 1

/-- `nova_rename` of the directory itself, with its new parent if that is another one. -/
def renameSelf (e : NovaLinkChangeEntry) (append : AppendLink) (newDir : Option Nat) : Option LiveDir :=
  (s.appendLinkChange e append).map fun t =>
    match newDir with
    | some ino => { t with dir := t.dir.setDentry t.fatherEntry { t.dir.dentries t.fatherEntry with ino := ino } }
    | none => t

/-- The directory after a mount, once it is used again: `nova_rebuild_inode`, and the inode
`nova_read_inode` makes from it. -/
def remount (verifies : DirRecord → Bool) (slab : Nat → List Nat → Option Nat) : Option LiveDir :=
  match novaRebuildDirInodeTree env s.image verifies slab with
  | (_, .error _) => none
  | (d, .ok ()) =>
    some { s with
      dir := d.dir
      pi := d.reb
      lastLinkChange := d.lastLinkChange
      lastSetattr := d.lastSetattr
      nlink := d.reb.iLinksCount
      mode := d.reb.iMode
      uid := d.reb.iUid
      gid := d.reb.iGid }

end LiveDir

/-! ### A new directory -/

/-- `nova_init_dentry`: the entries `.` and `..` -/
def novaInitDentry (selfIno parentIno epochId mtime : Nat) : LogDentry × LogDentry :=
  (⟨⟨[46], selfIno, novaDirLogRecLen 1, 1, mtime, epochId, 0⟩, false⟩,
    ⟨⟨[46, 46], parentIno, novaDirLogRecLen 2, 2, mtime, epochId, 0⟩, false⟩)

/-- `nova_append_dir_init_entries` of an inode whose log gets the page at `newBlock`. -/
def novaAppendDirInitEntries (pi : NovaInodeRebuild) (newBlock selfIno parentIno epochId mtime : Nat) : DirImage :=
  let second := newBlock + novaDirLogRecLen 1
  let e := novaInitDentry selfIno parentIno epochId mtime
  { pi := pi
    logHead := newBlock
    logTail := second + novaDirLogRecLen 2
    log := [.dirLog newBlock, .dirLog second]
    dentries := Function.update (fun _ => e.1) second e.2
    changes := fun _ => ⟨0, 0, 0, 0, 0, 0⟩
    attrs := fun _ => ⟨0, 0, 0, 0, 0, 0, 0, 0, 0, 0⟩ }

/-- The directory `nova_mkdir` makes of it; `TYPE_MKDIR` sets two links. -/
def newLiveDir (env : BallocEnv) (img : DirImage) (verifies : DirRecord → Bool)
    (slab : Nat → List Nat → Option Nat) (sEpochId : Nat) : Option LiveDir :=
  match novaRebuildDirInodeTree env img verifies slab with
  | (_, .error _) => none
  | (d, .ok ()) =>
    some
      { dir := d.dir
        logHead := img.logHead
        log := img.log
        reassigned := fun _ => false
        changes := img.changes
        attrs := img.attrs
        pi := img.pi
        lastLinkChange := d.lastLinkChange
        lastSetattr := d.lastSetattr
        nlink := 2
        mode := img.pi.iMode
        uid := img.pi.iUid
        gid := img.pi.iGid
        sEpochId := sEpochId
        subdirs := ∅ }

/-- What is done to a directory. -/
inductive DirAct where
  | create (a : NameCall) (ino : Nat) (slab : Option Nat)
  | mkdir (a : NameCall) (ino : Nat) (slab : Option Nat)
  | unlink (a : NameCall) (verifies : Bool × Bool)
  | rmdir (a : NameCall) (verifies : Bool × Bool)
  | renameInto (isDir : Bool) (r : LiveDir.RenameTo)
  | renameOut (isDir : Bool) (r : LiveDir.RenameFrom)
  | renameWithin (isDir : Bool) (new : LiveDir.RenameTo) (old : LiveDir.RenameFrom)
  | setattr (e : NovaSetattrLogentry) (append : AppendLink)
  | ioctl (e : NovaLinkChangeEntry) (append : AppendLink)
  | renameSelf (e : NovaLinkChangeEntry) (append : AppendLink) (newDir : Option Nat)
  /-- `nova_create_snapshot` -/
  | snapshot
  | remount (verifies : DirRecord → Bool) (slab : Nat → List Nat → Option Nat)

/-- The directory after it, unless it fails. -/
def DirAct.run (env : BallocEnv) (s : LiveDir) : DirAct → Option LiveDir
  | create a ino slab => s.novaCreate env a ino slab
  | mkdir a ino slab => s.novaMkdir env a ino slab
  | unlink a verifies => s.novaUnlink env a verifies
  | rmdir a verifies => s.novaRmdir env a verifies
  | renameInto isDir r => s.renameInto env isDir r
  | renameOut isDir r => s.renameOut env isDir r
  | renameWithin isDir new old => s.renameWithin env isDir new old
  | setattr e append => s.novaNotifyChange e append
  | ioctl e append => s.ioctlSet e append
  | renameSelf e append newDir => s.renameSelf e append newDir
  | snapshot => some { s with sEpochId := s.sEpochId + 1 }
  | remount verifies slab => s.remount env verifies slab

end Parfs
