/-
The lite journal.

Each CPU has one page of undo entries and a pair of pointers into it.  A transaction
writes an entry for every 8-byte word it is going to change, publishes them by moving the
tail, changes the words, and commits by moving the head.  A crash may come between any two
stores, so creating a transaction is modelled by the list of stores it performs: a store
that copies a word reads it when it is performed.

The journal pages, the journaled words and the pointer pairs are three parts of the
metadata area; addresses are offsets from its start.
-/
import Parfs.Lib.Machine
import Parfs.LogEntry

namespace Parfs

open Lib

/-- `struct nova_lite_journal_entry` -/
structure LiteJournalEntry where
  type : Nat
  data1 : Nat
  data2 : Nat
  padding : Nat
  csum : Nat
  deriving DecidableEq, Repr

/-- `JOURNAL_INODE` -/
def journalInode : Nat := 1
/-- `JOURNAL_ENTRY` -/
def journalEntry : Nat := 2

/-- `struct journal_ptr_pair` -/
structure JournalPtrPair where
  journalHead : Nat
  journalTail : Nat
  deriving DecidableEq, Repr

/-- The persistent memory the journal works on. -/
structure JournalMem where
  entries : Nat → LiteJournalEntry
  words : Nat → Nat
  pairs : Nat → JournalPtrPair

structure JournalEnv where
  /-- the module parameter `metadata_csum` -/
  metadataCsum : Bool
  cpus : Nat
  /-- `nova_crc32c` of the bytes in front of `csum`: type, data1, data2, padding -/
  novaCrc32c : Nat → Nat → Nat → Nat → Nat

namespace JournalMem

variable (m : JournalMem)

def setEntry (p : Nat) (f : LiteJournalEntry → LiteJournalEntry) : JournalMem :=
  { m with entries := fun q => if q = p then f (m.entries p) else m.entries q }

def setWord (addr value : Nat) : JournalMem :=
  { m with words := Function.update m.words addr value }

def setPair (cpu : Nat) (pair : JournalPtrPair) : JournalMem :=
  { m with pairs := fun c => if c = cpu then pair else m.pairs c }

end JournalMem

/-- One store of a transaction that is being created. -/
inductive JournalStore where
  | type (p v : Nat)
  | padding (p : Nat)
  | data1 (p v : Nat)
  | data2 (p v : Nat)
  /-- `data2 = *aligned_field` -/
  | data2Word (p addr : Nat)
  | csum (p : Nat)
  | tail (cpu v : Nat)
  deriving DecidableEq, Repr

section Functions

variable (env : JournalEnv)

def entryCrc (e : LiteJournalEntry) : Nat := env.novaCrc32c e.type e.data1 e.data2 e.padding

/-- `nova_update_journal_entry_csum` -/
def novaUpdateJournalEntryCsum (e : LiteJournalEntry) : LiteJournalEntry :=
  { e with csum := entryCrc env e }

/-- `nova_check_entry_integrity`, 0 when the entry is genuine. -/
def novaCheckEntryIntegrity (e : LiteJournalEntry) : Nat := if e.csum = entryCrc env e then 0 else 1

def JournalStore.apply (m : JournalMem) : JournalStore → JournalMem
  | .type p v => m.setEntry p fun e => { e with type := v }
  | .padding p => m.setEntry p fun e => { e with padding := 0 }
  | .data1 p v => m.setEntry p fun e => { e with data1 := v }
  | .data2 p v => m.setEntry p fun e => { e with data2 := v }
  | .data2Word p addr => m.setEntry p fun e => { e with data2 := m.words addr }
  | .csum p => m.setEntry p (novaUpdateJournalEntryCsum env)
  | .tail cpu v => m.setPair cpu { m.pairs cpu with journalTail := v }

/-- `next_lite_journal` -/
def nextLiteJournal (currP : Nat) : Nat :=
  if currP % 4096 + 32 ≥ 4096 then currP / 4096 * 4096 else currP + 32

/-! ### Check and recovery

Both loops walk from the head to the tail.  There are 128 places in a page, so a walk that
has not met the tail after 128 steps goes round for ever; that is `none`. -/

/-- The loop of `nova_check_journal_entries`. -/
def novaCheckJournalEntriesLoop (m : JournalMem) (tail : Nat) : Nat → Nat → Option Nat
  | 0, _ => none
  | fuel + 1, temp =>
    if temp = tail then some 0
    else
      let ret := novaCheckEntryIntegrity env (m.entries temp)
      if ret ≠ 0 then some ret else novaCheckJournalEntriesLoop m tail fuel (nextLiteJournal temp)

/-- `nova_check_journal_entries` -/
def novaCheckJournalEntries (m : JournalMem) (pair : JournalPtrPair) : Option Nat :=
  novaCheckJournalEntriesLoop env m pair.journalTail 128 pair.journalHead

/-- `nova_undo_journal_inode`: the words of the replica over those of the inode. -/
def novaUndoJournalInode (m : JournalMem) (e : LiteJournalEntry) : JournalMem :=
  if env.metadataCsum then
    { m with words := fun a =>
        if e.data1 ≤ a ∧ a < e.data1 + NovaInode.size then m.words (a - e.data1 + e.data2)
        else m.words a }
  else m

/-- `nova_undo_journal_entry` -/
def novaUndoJournalEntry (m : JournalMem) (e : LiteJournalEntry) : JournalMem :=
  m.setWord e.data1 e.data2

/-- `nova_undo_lite_journal_entry` -/
def novaUndoLiteJournalEntry (m : JournalMem) (e : LiteJournalEntry) : JournalMem :=
  if e.type = journalInode then novaUndoJournalInode env m e
  else if e.type = journalEntry then novaUndoJournalEntry m e
  else m

/-- The loop of `nova_recover_lite_journal`. -/
def novaRecoverLiteJournalLoop (tail : Nat) : Nat → Nat → JournalMem → Option JournalMem
  | 0, _, _ => none
  | fuel + 1, temp, m =>
    if temp = tail then some m
    else
      novaRecoverLiteJournalLoop tail fuel (nextLiteJournal temp)
        (novaUndoLiteJournalEntry env m (m.entries temp))

/-- `nova_recover_lite_journal` -/
def novaRecoverLiteJournal (m : JournalMem) (cpu : Nat) : Option JournalMem :=
  (novaRecoverLiteJournalLoop env (m.pairs cpu).journalTail 128 (m.pairs cpu).journalHead m).map
    fun m => m.setPair cpu { m.pairs cpu with journalTail := (m.pairs cpu).journalHead }

/-- The recovery loop of `nova_lite_journal_soft_init` over the CPUs still to come. -/
def softInitLoop : List Nat → JournalMem → Option (Except Errno JournalMem)
  | [], m => some (.ok m)
  | cpu :: cpus, m =>
    if (m.pairs cpu).journalHead = (m.pairs cpu).journalTail then softInitLoop cpus m
    else
      (novaCheckJournalEntries env m (m.pairs cpu)).bind fun ret =>
        if ret ≠ 0 then some (.error .einval)
        else (novaRecoverLiteJournal env m cpu).bind (softInitLoop cpus)

/-- `nova_lite_journal_soft_init`; `locks` says whether the array of locks could be
allocated. -/
def novaLiteJournalSoftInit (locks : Bool) (m : JournalMem) : Option (Except Errno JournalMem) :=
  if locks then softInitLoop env (List.range env.cpus) m else some (.error .enomem)

/-! ### Creating and committing -/

/-- The stores so far and `curr_p`. -/
structure Journaling where
  stores : List JournalStore
  currP : Nat
  deriving DecidableEq, Repr

/-- What `nova_append_inode_journal` reads of an inode. -/
structure JournalInode where
  /-- `nova_get_inode`, none when the inode could not be read -/
  pi : Option Nat
  piAddr : Nat
  alterPiAddr : Nat
  deriving DecidableEq, Repr

/-- `nova_append_replica_inode_journal` -/
def novaAppendReplicaInodeJournal (b : Journaling) (inode : JournalInode) : Journaling where
  stores := b.stores ++ [.type b.currP journalInode, .padding b.currP, .data1 b.currP inode.piAddr,
    .data2 b.currP inode.alterPiAddr, .csum b.currP]
  currP := nextLiteJournal b.currP

/-- `nova_append_entry_journal` -/
def novaAppendEntryJournal (b : Journaling) (field : Nat) : Journaling :=
  let addr := field / 8 * 8
  { stores := b.stores ++ [.type b.currP journalEntry, .padding b.currP, .data1 b.currP addr,
      .data2Word b.currP addr, .csum b.currP]
    currP := nextLiteJournal b.currP }

/-- `nova_journal_inode_tail` -/
def novaJournalInodeTail (b : Journaling) (pi : Nat) : Journaling :=
  let b := novaAppendEntryJournal b (pi + NovaInode.logTailAt)
  if env.metadataCsum then novaAppendEntryJournal b (pi + NovaInode.alterLogTailAt) else b

/-- `nova_append_inode_journal` -/
def novaAppendInodeJournal (b : Journaling) (inode : JournalInode)
    (newInode invalidate isDir : Bool) : Journaling :=
  if env.metadataCsum then novaAppendReplicaInodeJournal b inode
  else
    match inode.pi with
    | none => b
    | some pi =>
      if isDir then novaJournalInodeTail env b pi
      else if newInode then novaAppendEntryJournal b (pi + NovaInode.validAt)
      else
        let b := novaJournalInodeTail env b pi
        if invalidate then
          novaAppendEntryJournal (novaAppendEntryJournal b (pi + NovaInode.validAt))
            (pi + NovaInode.deleteEpochIdAt)
        else b

/-- `nova_append_dentry_journal` -/
def novaAppendDentryJournal (b : Journaling) (dentry : Nat) : Journaling :=
  let b := novaAppendEntryJournal b (dentry + NovaDentry.inoAt)
  let b := novaAppendEntryJournal b (dentry + NovaDentry.csumAt)
  let b := novaAppendEntryJournal b (dentry + NovaDentry.reassignedAt)
  novaAppendEntryJournal b (dentry + NovaDentry.invalidAt)

/-- An optional argument of a builder: nothing is journaled for `NULL`. -/
def journalOptional {α : Type} (append : Journaling → α → Journaling) (b : Journaling) :
    Option α → Journaling
  | none => b
  | some x => append b x

/-- What the three builders share: the pointers must exist and meet (`BUG()` otherwise,
`none` here), and the tail is moved over the new entries last. -/
def createTransaction (pair : JournalPtrPair) (cpu : Nat) (append : Journaling → Journaling) :
    Option Journaling :=
  if pair.journalHead = 0 ∨ pair.journalHead ≠ pair.journalTail then none
  else
    let b := append ⟨[], pair.journalHead⟩
    some { b with stores := b.stores ++ [.tail cpu b.currP] }

/-- `nova_create_inode_transaction` -/
def novaCreateInodeTransaction (pair : JournalPtrPair) (inode dir : JournalInode) (cpu : Nat)
    (newInode invalidate : Bool) : Option Journaling :=
  createTransaction pair cpu fun b =>
    let b := novaAppendInodeJournal env b inode newInode invalidate false
    novaAppendInodeJournal env b dir newInode invalidate true

/-- `nova_create_rename_transaction` -/
def novaCreateRenameTransaction (pair : JournalPtrPair) (oldInode oldDir : JournalInode)
    (newInode newDir : Option JournalInode) (fatherEntry newDentry oldDentry : Option Nat)
    (invalidateNewInode : Bool) (cpu : Nat) : Option Journaling :=
  createTransaction pair cpu fun b =>
    let b := novaAppendInodeJournal env b oldInode false false false
    let b := novaAppendInodeJournal env b oldDir false false true
    let b := journalOptional
      (fun b i => novaAppendInodeJournal env b i false invalidateNewInode false) b newInode
    let b := journalOptional (fun b i => novaAppendInodeJournal env b i false false true) b newDir
    let b := journalOptional novaAppendDentryJournal b fatherEntry
    let b := journalOptional novaAppendDentryJournal b newDentry
    journalOptional novaAppendDentryJournal b oldDentry

/-- `nova_create_logentry_transaction` -/
def novaCreateLogentryTransaction (pair : JournalPtrPair) (entry : Nat) (type : NovaEntryType)
    (cpu : Nat) : Option Journaling :=
  createTransaction pair cpu fun b =>
    (List.range (novaGetLogEntrySize type / 8)).foldl
      (fun b i => novaAppendEntryJournal b (entry + i * 8)) b

/-- `nova_commit_lite_transaction`; `none` is `BUG()`. -/
def novaCommitLiteTransaction (m : JournalMem) (tail cpu : Nat) : Option JournalMem :=
  if (m.pairs cpu).journalTail ≠ tail then none
  else some (m.setPair cpu { m.pairs cpu with journalHead := tail })

end Functions

end Parfs
