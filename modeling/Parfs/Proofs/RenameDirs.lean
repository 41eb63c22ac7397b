/-
What a rename that fails leaves behind.

Nothing is undone, so it comes down to how far the rename got.  A link change that was
appended lies behind the tail, and one that was stored over the last one stays.  The name of
the target goes before anything else in the directories can fail, and a new name that was
added is there for good.  What is left are the errors before the directories, and a new name
that cannot be added where there is no target.
-/
import Parfs.RenameDirs
import Parfs.Proofs.Dir

namespace Parfs

open Lib

/-- Where a link change is stored. -/
def AppendLink.written : AppendLink → Option Nat
  | .refused _ p => p
  | .appended p => some p

/-- One of the four inodes. -/
def RenameInput.Involved (r : RenameInput) (ino : Nat) : Prop :=
  ino = r.oldDir ∨ ino = r.newDir ∨ ino = r.oldInode ∨ r.newInode = some ino

/-- What the call comes to: the directories hold the names they should, and the logs store past
their tails.  `committed` says what lies in the log of an inode up to its tails. -/
structure RenameReady (env : BallocEnv) (r : RenameInput) (committed : Nat → Nat → Prop)
    (names : Nat → List UInt8 → Option Nat) (s : RenameFs) : Prop where
  dirs : ∀ dir, dir = r.oldDir ∨ dir = r.newDir → DirInv env ⟨s.dirs dir, names dir⟩
  oldName : 0 < r.oldName.length ∧ names r.oldDir r.oldName ≠ none
  newName : 0 < r.newName.length ∧ (r.newInode = none ↔ names r.newDir r.newName = none)
  apart : r.oldDir = r.newDir → r.oldName ≠ r.newName
  linked : ∀ dir name p, names dir name = some p → committed dir p
  lastLink : (s.links r.oldInode).lastLinkChange ≠ 0 → committed r.oldInode (s.links r.oldInode).lastLinkChange
  linkOld : ∀ p, r.linkOld.written = some p → ¬ committed r.oldInode p
  newAppend : ∀ p, r.newAppend.written = some p → ¬ committed r.newDir p
  slab : ∀ addr, r.slab = some addr → addr ∉ (s.dirs r.newDir).nodes.map RangeNode.addr

/-- Nothing of it can be seen. -/
structure RenameUnchanged (env : BallocEnv) (r : RenameInput) (committed : Nat → Nat → Prop) (s t : RenameFs) : Prop where
  lookups : ∀ dir, dir = r.oldDir ∨ dir = r.newDir → ∀ name,
    novaFindDentry env (t.dirs dir) name = novaFindDentry env (s.dirs dir) name
  nlink : ∀ ino, r.Involved ino → t.nlink ino = s.nlink ino
  tails : ∀ dir, dir = r.oldDir ∨ dir = r.newDir → (t.dirs dir).logTail = (s.dirs dir).logTail
  dentries : ∀ dir, dir = r.oldDir ∨ dir = r.newDir → ∀ p, committed dir p →
    (t.dirs dir).dentries p = (s.dirs dir).dentries p
  changes : ∀ ino, r.Involved ino → ∀ p, committed ino p → (t.links ino).changes p = (s.links ino).changes p

/-- The link change of the inode cannot be appended. -/
def LinkRefused (r : RenameInput) (s : RenameFs) : Prop :=
  novaCanInplaceUpdateLcentry r (s.links r.oldInode) = false ∧ ∀ currP, r.linkOld ≠ .appended currP

/-- The link change of the inode is appended, or it is stored over one that says the same. -/
def LinkKept (r : RenameInput) (s : RenameFs) : Prop :=
  novaCanInplaceUpdateLcentry r (s.links r.oldInode) = true →
    (s.links r.oldInode).changes (s.links r.oldInode).lastLinkChange = novaLinkChangeEntry r s r.oldInode

/-- The new name cannot be added: no room in the log, no memory for a node, or its hash is taken. -/
def NewNameRefused (r : RenameInput) (names : List UInt8 → Option Nat) : Prop :=
  (∀ currP, r.newAppend ≠ .appended currP) ∨ r.slab = none ∨
    ∃ other, names other ≠ none ∧ bkdrHash other = bkdrHash r.newName

section

variable {env : BallocEnv} {r : RenameInput} {committed : Nat → Nat → Prop}
  {names : Nat → List UInt8 → Option Nat} {s s' t : RenameFs} {ino dir : Nat} {name : List UInt8}

/-! ### The link changes -/

@[simp] theorem novaAppendLinkChangeEntry_dirs (i : Nat) (append : AppendLink) :
    (novaAppendLinkChangeEntry r s i append).1.dirs = s.dirs := by
  unfold novaAppendLinkChangeEntry
  dsimp only
  split
  · rfl
  · split <;> rfl

@[simp] theorem novaAppendLinkChangeEntry_nlink (i : Nat) (append : AppendLink) :
    (novaAppendLinkChangeEntry r s i append).1.nlink = s.nlink := by
  unfold novaAppendLinkChangeEntry
  dsimp only
  split
  · rfl
  · split <;> rfl

theorem novaAppendLinkChangeEntry_other (append : AppendLink) {i : Nat} (h : i ≠ ino) :
    (novaAppendLinkChangeEntry r s ino append).1.links i = s.links i := by
  unfold novaAppendLinkChangeEntry
  dsimp only
  split
  · exact Function.update_of_ne h ..
  · split
    · rfl
    · exact Function.update_of_ne h ..
    · exact Function.update_of_ne h ..

/-- It fails when it cannot be stored in place and the log has no room. -/
theorem novaAppendLinkChangeEntry_error_iff :
    (∃ e, (novaAppendLinkChangeEntry r s r.oldInode r.linkOld).2 = .error e) ↔ LinkRefused r s := by
  unfold novaAppendLinkChangeEntry LinkRefused
  dsimp only
  cases hplace : novaCanInplaceUpdateLcentry r (s.links r.oldInode) with
  | true => simp
  | false => rcases happend : r.linkOld with ⟨e, _ | p⟩ | p <;> simp

/-- The log up to its tails stays as it was, unless a change is stored in place. -/
theorem novaAppendLinkChangeEntry_kept (h : RenameReady env r committed names s) {p : Nat}
    (hp : committed r.oldInode p)
    (hkept : novaCanInplaceUpdateLcentry r (s.links r.oldInode) = false ∨ LinkKept r s) :
    ((novaAppendLinkChangeEntry r s r.oldInode r.linkOld).1.links r.oldInode).changes p =
      (s.links r.oldInode).changes p := by
  have hset : ∀ currP, r.linkOld.written = some currP → p ≠ currP := by
    rintro currP hw rfl
    exact h.linkOld p hw hp
  unfold novaAppendLinkChangeEntry
  dsimp only
  cases hplace : novaCanInplaceUpdateLcentry r (s.links r.oldInode) with
  | true =>
      have hsame := hkept.resolve_left (by simp [hplace]) hplace
      rw [if_pos rfl]
      dsimp only
      rw [Function.update_self]
      unfold LinkLog.setChange
      dsimp only
      split
      · rename_i heq
        rw [heq, hsame]
      · rfl
  | false =>
      rw [if_neg (by simp)]
      rcases happend : r.linkOld with ⟨e, _ | currP⟩ | currP
      · rfl
      · dsimp only
        rw [Function.update_self]
        exact if_neg (hset currP (by rw [happend]; rfl))
      · dsimp only
        rw [Function.update_self]
        exact if_neg (hset currP (by rw [happend]; rfl))

/-- A change that is stored in place says what the call says. -/
theorem novaAppendLinkChangeEntry_inplace (hplace : novaCanInplaceUpdateLcentry r (s.links ino) = true)
    (append : AppendLink) :
    ((novaAppendLinkChangeEntry r s ino append).1.links ino).changes (s.links ino).lastLinkChange =
      novaLinkChangeEntry r s ino := by
  unfold novaAppendLinkChangeEntry
  dsimp only
  rw [if_pos hplace]
  dsimp only
  rw [Function.update_self]
  exact if_pos rfl

theorem RenameUnchanged.refl (s : RenameFs) : RenameUnchanged env r committed s s :=
  ⟨fun _ _ _ => rfl, fun _ _ => rfl, fun _ _ => rfl, fun _ _ _ _ => rfl, fun _ _ _ _ => rfl⟩

/-- What comes after a step that changes nothing. -/
theorem RenameUnchanged.cancel_left {t' : RenameFs} (h : RenameUnchanged env r committed t t') :
    RenameUnchanged env r committed s t' ↔ RenameUnchanged env r committed s t := by
  constructor
  · intro hs
    exact ⟨fun d hd n => (h.lookups d hd n).symm.trans (hs.lookups d hd n),
      fun i hi => (h.nlink i hi).symm.trans (hs.nlink i hi), fun d hd => (h.tails d hd).symm.trans (hs.tails d hd),
      fun d hd p hp => (h.dentries d hd p hp).symm.trans (hs.dentries d hd p hp),
      fun i hi p hp => (h.changes i hi p hp).symm.trans (hs.changes i hi p hp)⟩
  · intro hs
    exact ⟨fun d hd n => (h.lookups d hd n).trans (hs.lookups d hd n),
      fun i hi => (h.nlink i hi).trans (hs.nlink i hi), fun d hd => (h.tails d hd).trans (hs.tails d hd),
      fun d hd p hp => (h.dentries d hd p hp).trans (hs.dentries d hd p hp),
      fun i hi p hp => (h.changes i hi p hp).trans (hs.changes i hi p hp)⟩

/-- What the link change of the inode leaves. -/
theorem RenameReady.linkChanged (h : RenameReady env r committed names s) :
    RenameUnchanged env r committed s (novaAppendLinkChangeEntry r s r.oldInode r.linkOld).1 ↔ LinkKept r s := by
  constructor
  · intro hsame hplace
    have hne : (s.links r.oldInode).lastLinkChange ≠ 0 := by
      unfold novaCanInplaceUpdateLcentry at hplace
      simp at hplace
      exact hplace.1
    rw [← novaAppendLinkChangeEntry_inplace hplace r.linkOld]
    exact (hsame.changes r.oldInode (Or.inr (Or.inr (Or.inl rfl))) _ (h.lastLink hne)).symm
  · intro hkept
    refine ⟨fun dir _ name => by rw [novaAppendLinkChangeEntry_dirs], fun ino _ => by rw [novaAppendLinkChangeEntry_nlink],
      fun dir _ => by rw [novaAppendLinkChangeEntry_dirs], fun dir _ p _ => by rw [novaAppendLinkChangeEntry_dirs], ?_⟩
    intro ino _ p hp
    by_cases hino : ino = r.oldInode
    · subst hino
      exact novaAppendLinkChangeEntry_kept h hp (Or.inr hkept)
    · rw [novaAppendLinkChangeEntry_other _ hino]

/-! ### The directories -/

/-- The nodes of the new directory. -/
def newNodes (r : RenameInput) (s : RenameFs) : List RangeNode := (s.dirs r.newDir).nodes

/-- What the tree of the new directory says of the new name. -/
def newTable (r : RenameInput) (s : RenameFs) : Option Nat := dirTable (newNodes r s) (dirKey r.newName)

theorem newNodes_congr (h : t.dirs = s.dirs) : newNodes r t = newNodes r s := by
  unfold newNodes
  rw [h]

theorem removeTarget_spec (h : DirNodesOk env (newNodes r s)) (hname : 0 < r.newName.length) :
    DirNodesOk env (newNodes r (removeTarget env r s).1) ∧
      (∀ n ∈ newNodes r (removeTarget env r s).1, n ∈ newNodes r s) ∧
      (r.newInode ≠ none → dirTable (newNodes r (removeTarget env r s).1) =
        Function.update (dirTable (newNodes r s)) (dirKey r.newName) none) := by
  unfold removeTarget
  by_cases hnone : r.newInode = none
  · rw [if_pos hnone]
    exact ⟨h, fun _ hn => hn, fun hne => absurd hnone hne⟩
  · rw [if_neg hnone]
    unfold removeDentry newNodes
    dsimp only
    rw [Function.update_self]
    obtain ⟨hnodes, hsub, htable⟩ := novaRemoveDentry_tree h
      (dentryCall r s r.newDir r.newName 0 r.targetAppend) true r.targetVerifies ⟨0, 0, none, none⟩ hname
    exact ⟨hnodes, hsub, fun _ => htable⟩

/-- The new name is added, or the tree stays. -/
theorem addNewDentry_spec (h : DirNodesOk env (newNodes r s)) (hname : 0 < r.newName.length)
    (hslab : ∀ addr, r.slab = some addr → addr ∉ (newNodes r s).map RangeNode.addr) (update : NovaInodeUpdate) :
    ((∃ e, (addNewDentry env r s update).2 = .error e) ∧
        newNodes r (addNewDentry env r s update).1 = newNodes r s) ∨
      (∃ u, (addNewDentry env r s update).2 = .ok u ∧ r.newAppend.written = some u.currEntry ∧
        newTable r s = none ∧ DirNodesOk env (newNodes r (addNewDentry env r s update).1) ∧
        dirTable (newNodes r (addNewDentry env r s update).1) =
          Function.update (dirTable (newNodes r s)) (dirKey r.newName) (some u.currEntry)) := by
  unfold addNewDentry newTable newNodes
  dsimp only
  rw [Function.update_self]
  obtain ⟨-, ⟨e, he, hnodes⟩ | ⟨u, hu, hw, hfree, hnodes, htable, -⟩⟩ := novaAddDentry_spec h
    (dentryCall r s r.newDir r.newName r.incLink r.newAppend) r.oldInode update hname hslab
  · exact Or.inl ⟨⟨e, he⟩, hnodes⟩
  · exact Or.inr ⟨u, hu, hw, hfree, hnodes, htable⟩

/-- The old name goes; what the tree says of another name stays. -/
theorem removeOld_spec (h : DirNodesOk env (newNodes r s)) (hname : 0 < r.oldName.length)
    (hkey : r.oldDir = r.newDir → dirKey r.newName ≠ dirKey r.oldName) (linkChange : Int) (append : AppendDentry)
    (verifies : Bool) (update : NovaInodeUpdate) :
    DirNodesOk env (newNodes r (removeDentry env r s r.oldDir r.oldName linkChange append verifies update).1) ∧
      newTable r (removeDentry env r s r.oldDir r.oldName linkChange append verifies update).1 = newTable r s := by
  unfold newTable newNodes removeDentry
  dsimp only
  by_cases hdir : r.oldDir = r.newDir
  · rw [hdir, Function.update_self]
    obtain ⟨hnodes, -, htable⟩ := novaRemoveDentry_tree h
      (dentryCall r s r.newDir r.oldName linkChange append) true verifies update hname
    refine ⟨hnodes, ?_⟩
    rw [htable]
    exact Function.update_of_ne (hkey hdir) ..
  · rw [Function.update_of_ne (Ne.symm hdir)]
    exact ⟨h, rfl⟩

theorem ite_setNlink_dirs {p : Prop} [Decidable p] {n : Nat} : (if p then s.setNlink ino n else s).dirs = s.dirs := by
  split <;> rfl

theorem dropTarget_dirs : (dropTarget r s ino).dirs = s.dirs := ite_setNlink_dirs.trans ite_setNlink_dirs

theorem dropNewInode_dirs : (dropNewInode r s).1.dirs = s.dirs := by
  unfold dropNewInode
  split
  · rw [novaAppendLinkChangeEntry_dirs, dropTarget_dirs]
  · rfl

/-- Once the new name is added it stays. -/
theorem renameDentries_added {update u : NovaInodeUpdate} (h : DirNodesOk env (newNodes r t))
    (hname : 0 < r.oldName.length) (hkey : r.oldDir = r.newDir → dirKey r.newName ≠ dirKey r.oldName)
    (htarget : removeTarget env r s = (s', .ok update)) (hadd : addNewDentry env r s' update = (t, .ok u)) :
    DirNodesOk env (newNodes r (renameDentries env r s).1) ∧ newTable r (renameDentries env r s).1 = newTable r t := by
  unfold renameDentries
  rw [htarget]
  dsimp only [andThen]
  rw [hadd]
  dsimp only
  generalize hinc : (if r.incLink > 0 then t.setNlink r.newDir (t.nlink r.newDir + 1) else t) = t'
  have ht' : t'.dirs = t.dirs := by
    rw [← hinc]
    exact ite_setNlink_dirs
  obtain ⟨hnodes, htable⟩ := removeOld_spec (s := t') (by rw [newNodes_congr ht']; exact h) hname hkey r.decLink r.oldAppend
    r.oldVerifies ⟨if r.oldDir = r.newDir then u.tail else 0, 0, none, none⟩
  unfold newTable at htable ⊢
  rw [newNodes_congr ht'] at htable
  rcases hold : removeDentry env r t' r.oldDir r.oldName r.decLink r.oldAppend r.oldVerifies
    ⟨if r.oldDir = r.newDir then u.tail else 0, 0, none, none⟩ with ⟨t'', e | u'⟩
  · rw [hold] at hnodes htable
    exact ⟨hnodes, htable⟩
  · rw [hold] at hnodes htable
    dsimp only
    rw [newNodes_congr (dropNewInode_dirs.trans ite_setNlink_dirs)]
    exact ⟨hnodes, htable⟩

theorem RenameReady.new_inv (h : RenameReady env r committed names s) :
    DirInv env ⟨s.dirs r.newDir, names r.newDir⟩ := h.dirs r.newDir (Or.inr rfl)

/-- The hash of the new name is free when no name that is present has it. -/
theorem RenameReady.free_iff (h : RenameReady env r committed names s) (hnone : r.newInode = none) :
    newTable r s = none ↔ ¬ ∃ other, names r.newDir other ≠ none ∧ bkdrHash other = bkdrHash r.newName := by
  have habsent := h.newName.2.mp hnone
  have hlookup := h.new_inv.keyed.lookup_iff r.newName
  dsimp only at hlookup
  rw [habsent] at hlookup
  unfold newTable newNodes
  rw [hlookup]
  constructor
  · rintro halone ⟨other, hother, hhash⟩
    obtain rfl := halone other hother (UInt64.toNat_inj.mpr hhash)
    exact hother habsent
  · intro hnot other hother hkey
    exact absurd ⟨other, hother, UInt64.toNat_inj.mp hkey⟩ hnot

/-- The old name is kept under another key than the one that is free for the new one. -/
theorem RenameReady.keys_apart (h : RenameReady env r committed names s)
    (hfree : r.newInode = none → newTable r s = none) :
    r.oldDir = r.newDir → dirKey r.newName ≠ dirKey r.oldName := by
  intro hdir hkey
  have hold := h.oldName.2
  rw [hdir] at hold
  by_cases hnone : r.newInode = none
  · obtain ⟨p, hp⟩ := Option.ne_none_iff_exists'.mp hold
    have hstored := h.new_inv.keyed.stored r.oldName p hp
    rw [← hkey] at hstored
    have hnone' := hfree hnone
    unfold newTable newNodes at hnone'
    rw [hstored] at hnone'
    cases hnone'
  · have hnew : names r.newDir r.newName ≠ none := fun habsent => hnone (h.newName.2.mpr habsent)
    exact h.apart hdir (h.new_inv.keyed.distinct _ _ hnew hold hkey).symm

/-- The new name can be added where there is no target, or it cannot. -/
theorem RenameReady.add_error_iff (h : RenameReady env r committed names s) (hdirs : t.dirs = s.dirs)
    (hnone : r.newInode = none) (update : NovaInodeUpdate) :
    (∃ e, (addNewDentry env r t update).2 = .error e) ↔ NewNameRefused r (names r.newDir) := by
  have hok := novaAddDentry_ok_iff h.new_inv.nodes (dentryCall r t r.newDir r.newName r.incLink r.newAppend) r.oldInode
    update h.newName.1 h.slab
  have hfree := h.free_iff hnone
  unfold newTable newNodes at hfree
  have hsnd : (addNewDentry env r t update).2 = (novaAddDentry env (s.dirs r.newDir)
      (dentryCall r t r.newDir r.newName r.incLink r.newAppend) r.oldInode r.slab update).2 := by
    unfold addNewDentry
    rw [hdirs]
  rw [hsnd]
  unfold NewNameRefused
  rcases hres : (novaAddDentry env (s.dirs r.newDir) (dentryCall r t r.newDir r.newName r.incLink r.newAppend)
    r.oldInode r.slab update).2 with e | u
  · rw [hres] at hok
    refine iff_of_true ⟨e, rfl⟩ ?_
    by_contra hnot
    rw [not_or, not_or, not_forall] at hnot
    obtain ⟨⟨currP, hcurr⟩, hslab, htaken⟩ := hnot
    obtain ⟨u, hu⟩ := hok.mpr ⟨⟨currP, not_not.mp hcurr⟩, hslab, hfree.mpr htaken⟩
    cases hu
  · rw [hres] at hok
    obtain ⟨⟨currP, hcurr⟩, hslab, hnonetable⟩ := hok.mp ⟨u, rfl⟩
    refine iff_of_false (by simp) ?_
    rintro (hall | hall | hall)
    · exact hall currP hcurr
    · exact hslab hall
    · exact hfree.mp hnonetable hall

/-- When the new name cannot be added and there is no target, nothing has happened. -/
theorem RenameReady.dentries_refused (h : RenameReady env r committed names s) (hdirs : t.dirs = s.dirs)
    (hnone : r.newInode = none) (hrefused : NewNameRefused r (names r.newDir)) :
    (∃ e, (renameDentries env r t).2 = .error e) ∧ RenameUnchanged env r committed t (renameDentries env r t).1 := by
  obtain ⟨e, he⟩ := (h.add_error_iff hdirs hnone ⟨0, 0, none, none⟩).mpr hrefused
  have htarget : removeTarget env r t = (t, .ok ⟨0, 0, none, none⟩) := if_pos hnone
  have hres : renameDentries env r t = ((addNewDentry env r t ⟨0, 0, none, none⟩).1, .error e) := by
    unfold renameDentries
    rw [htarget]
    dsimp only [andThen]
    rw [show addNewDentry env r t ⟨0, 0, none, none⟩ = ((addNewDentry env r t ⟨0, 0, none, none⟩).1, .error e) from
      Prod.ext rfl he]
  rw [hres]
  refine ⟨⟨e, rfl⟩, ?_⟩
  have hinv := h.new_inv.nodes
  rw [← hdirs] at hinv
  have hslab := h.slab
  rw [← hdirs] at hslab
  obtain ⟨hother, ⟨e', he', hnodes⟩ | ⟨u, hu, -⟩⟩ := novaAddDentry_spec hinv
    (dentryCall r t r.newDir r.newName r.incLink r.newAppend) r.oldInode ⟨0, 0, none, none⟩ h.newName.1 hslab
  · have htail : (novaAddDentry env (t.dirs r.newDir) (dentryCall r t r.newDir r.newName r.incLink r.newAppend)
        r.oldInode r.slab ⟨0, 0, none, none⟩).1.logTail = (t.dirs r.newDir).logTail := novaAddDentry_logTail
    unfold addNewDentry
    dsimp only
    refine ⟨fun dir _ name => ?_, fun _ _ => rfl, fun dir _ => ?_, fun dir _ p hp => ?_, fun _ _ _ _ => rfl⟩
    · dsimp only
      by_cases hdir : dir = r.newDir
      · subst hdir
        rw [Function.update_self, novaFindDentry_eq (by rw [hnodes]; exact hinv), hnodes, novaFindDentry_eq hinv]
      · rw [Function.update_of_ne hdir]
    · dsimp only
      by_cases hdir : dir = r.newDir
      · subst hdir
        rw [Function.update_self, htail]
      · rw [Function.update_of_ne hdir]
    · dsimp only
      by_cases hdir : dir = r.newDir
      · subst hdir
        rw [Function.update_self]
        exact hother p fun hw => h.newAppend p hw hp
      · rw [Function.update_of_ne hdir]
  · unfold addNewDentry at he
    exact absurd (hu.symm.trans he) (by simp)

/-- Otherwise the new directory does not read as it did under the new name. -/
theorem RenameReady.dentries_changed (h : RenameReady env r committed names s) (hdirs : t.dirs = s.dirs)
    (hcase : r.newInode ≠ none ∨ ¬ NewNameRefused r (names r.newDir)) :
    DirNodesOk env (newNodes r (renameDentries env r t).1) ∧ newTable r (renameDentries env r t).1 ≠ newTable r s := by
  have hnodes : DirNodesOk env (newNodes r t) := by
    rw [newNodes_congr hdirs]
    exact h.new_inv.nodes
  obtain ⟨hnodes', hsub, htarget⟩ := removeTarget_spec hnodes h.newName.1
  have hslab : ∀ addr, r.slab = some addr → addr ∉ (newNodes r (removeTarget env r t).1).map RangeNode.addr := by
    intro addr haddr hmem
    obtain ⟨n, hn, hna⟩ := List.mem_map.mp hmem
    refine h.slab addr haddr (List.mem_map.mpr ⟨n, ?_, hna⟩)
    have := hsub n hn
    rwa [newNodes_congr hdirs] at this
  -- what was there under the new name, and that the new dentry is not it
  have hbefore : ∀ p, newTable r s = some p → committed r.newDir p := by
    intro p hp
    obtain ⟨name, -, hname⟩ := h.new_inv.keyed.named _ p hp
    exact h.linked r.newDir name p hname
  have hremoved : r.newInode ≠ none → newTable r (removeTarget env r t).1 = none ∧ newTable r s ≠ none := by
    intro hne
    refine ⟨?_, ?_⟩
    · unfold newTable
      rw [htarget hne, Function.update_self]
    · obtain ⟨p, hp⟩ := Option.ne_none_iff_exists'.mp fun habsent => hne (h.newName.2.mpr habsent)
      unfold newTable newNodes
      rw [h.new_inv.keyed.stored r.newName p hp]
      simp
  rcases hstep : removeTarget env r t with ⟨t₁, e | update⟩
  · -- the target's name is gone, and its removal failed
    have hne : r.newInode ≠ none := by
      intro hnone
      unfold removeTarget at hstep
      rw [if_pos hnone] at hstep
      cases hstep
    have hres : (renameDentries env r t).1 = t₁ := by
      unfold renameDentries
      rw [hstep]
      rfl
    rw [hstep] at hnodes' hremoved
    rw [hres]
    exact ⟨hnodes', fun heq => (hremoved hne).2 (heq.symm.trans (hremoved hne).1)⟩
  · rw [hstep] at hnodes' hslab hremoved
    rcases addNewDentry_spec hnodes' h.newName.1 hslab update with ⟨⟨e, he⟩, hsame⟩ | ⟨u, hu, hw, hfree, hadded, htable⟩
    · have hres : (renameDentries env r t).1 = (addNewDentry env r t₁ update).1 := by
        unfold renameDentries
        rw [hstep]
        dsimp only [andThen]
        rw [show addNewDentry env r t₁ update = ((addNewDentry env r t₁ update).1, .error e) from Prod.ext rfl he]
      have hne : r.newInode ≠ none := by
        refine hcase.elim id fun hnot hnone => hnot ((h.add_error_iff (t := t₁) ?_ hnone update).mp ⟨e, he⟩)
        unfold removeTarget at hstep
        rw [if_pos hnone] at hstep
        cases hstep
        exact hdirs
      rw [hres]
      unfold newTable
      rw [hsame]
      exact ⟨hnodes', fun heq => (hremoved hne).2 (heq.symm.trans (hremoved hne).1)⟩
    · have hkey := h.keys_apart fun hnone => by
        unfold removeTarget at hstep
        rw [if_pos hnone] at hstep
        cases hstep
        unfold newTable at hfree ⊢
        rw [← newNodes_congr hdirs]
        exact hfree
      obtain ⟨hdone, hlast⟩ := renameDentries_added hadded h.oldName.1 hkey hstep (Prod.ext rfl hu)
      refine ⟨hdone, fun heq => ?_⟩
      have hnew : newTable r s = some u.currEntry := by
        rw [← heq, hlast]
        unfold newTable
        rw [htable, Function.update_self]
      exact h.newAppend _ hw (hbefore _ hnew)

/--
**When a rename changes nothing.**  Exactly when it fails before it comes to the log, or at the
link change of the inode; or when that was not stored in place, or said nothing new, and what
fails is the check of the father, or the new name where there is no target.
-/
theorem novaRename_unchanged_iff (h : RenameReady env r committed names s) :
    RenameUnchanged env r committed s (novaRename env r s).1 ↔
      r.early ≠ none ∨ LinkRefused r s ∨
        (LinkKept r s ∧ ((r.changeParent = true ∧ r.fatherVerifies = false) ∨
          (r.newInode = none ∧ NewNameRefused r (names r.newDir)))) := by
  unfold novaRename
  cases hearly : r.early with
  | some err => exact iff_of_true (RenameUnchanged.refl s) (Or.inl (by simp))
  | none =>
      dsimp only
      have hlink := h.linkChanged
      have herror := novaAppendLinkChangeEntry_error_iff (r := r) (s := s)
      rcases hstep : novaAppendLinkChangeEntry r s r.oldInode r.linkOld with ⟨t, err | u⟩
      · rw [hstep] at hlink herror
        have hrefused : LinkRefused r s := herror.mp ⟨err, rfl⟩
        refine iff_of_true (hlink.mpr fun hplace => ?_) (Or.inr (Or.inl hrefused))
        rw [hrefused.1] at hplace
        cases hplace
      · have hdirs : t.dirs = s.dirs := by
          have := novaAppendLinkChangeEntry_dirs (r := r) (s := s) r.oldInode r.linkOld
          rwa [hstep] at this
        have hlinks : t.nlink = s.nlink := by
          have := novaAppendLinkChangeEntry_nlink (r := r) (s := s) r.oldInode r.linkOld
          rwa [hstep] at this
        rw [hstep] at hlink herror
        have hgone : ¬ LinkRefused r s := fun hrefused => by
          obtain ⟨err, herr⟩ := herror.mpr hrefused
          cases herr
        simp only [hgone, false_or, ne_eq, not_true_eq_false]
        dsimp only [andThen]
        by_cases hfather : r.changeParent = true ∧ ¬ r.fatherVerifies = true
        · rw [if_pos hfather, hlink]
          have hbad : r.changeParent = true ∧ r.fatherVerifies = false := by simpa using hfather
          exact (and_iff_left (Or.inl hbad)).symm
        · rw [if_neg hfather]
          have hgood : ¬ (r.changeParent = true ∧ r.fatherVerifies = false) := by simpa using hfather
          simp only [hgood, false_or]
          by_cases hcase : r.newInode = none ∧ NewNameRefused r (names r.newDir)
          · obtain ⟨-, hsame⟩ := h.dentries_refused hdirs hcase.1 hcase.2
            rw [← hlink, and_iff_left hcase]
            exact ⟨fun hall => (hsame.cancel_left).mp hall, fun hall => (hsame.cancel_left).mpr hall⟩
          · refine iff_of_false (fun hall => ?_) fun hand => hcase hand.2
            obtain ⟨hnodes, hchanged⟩ := h.dentries_changed hdirs (by
              by_contra hnot
              rw [not_or, not_not, not_not] at hnot
              exact hcase hnot)
            have hlook := hall.lookups r.newDir (Or.inr rfl) r.newName
            rw [novaFindDentry_eq hnodes, novaFindDentry_eq h.new_inv.nodes] at hlook
            exact hchanged hlook

/-! ### A file that is moved -/

/-- A directory with the name `b`. -/
def oneName : DirState := (addName [98]).apply plainDirEnv emptyDir

/-- That directory is inode 1, and inode 2 is an empty one. -/
def twoDirs : RenameFs :=
  ⟨fun dir => if dir = 1 then oneName.dir else emptyDir.dir, fun _ => ⟨0, fun _ => ⟨0, 0, 0, 0, 0, 0⟩, 0⟩, fun _ => 2⟩

/-- The name moves to the empty directory and becomes `c`. -/
def moveName (newAppend oldAppend : AppendDentry) : RenameInput where
  oldDir := 1
  newDir := 2
  oldInode := 40
  newInode := none
  oldName := [98]
  newName := [99]
  isDir := false
  early := none
  epochId := 2
  time := 0
  flags := 0
  generation := 0
  linkOld := .appended 8192
  fatherVerifies := true
  targetVerifies := true
  targetAppend := .refused .enospc none
  slab := some 1
  newAppend := newAppend
  oldVerifies := true
  oldAppend := oldAppend
  linkNew := .refused .enospc none

/-- The names of the two directories. -/
def twoDirsNames (dir : Nat) : List UInt8 → Option Nat := if dir = 1 then oneName.names else fun _ => none

theorem oneName_inv : DirInv plainDirEnv oneName :=
  DirInv.step (DirStart.inv ⟨rfl, fun _ => rfl⟩) (addName_enabled (by decide) (by decide)) trivial

theorem moveName_ready {newAppend oldAppend : AppendDentry} (h : newAppend.written ≠ some 4096) :
    RenameReady plainDirEnv (moveName newAppend oldAppend) (fun _ p => p = 4096) twoDirsNames twoDirs where
  dirs := by
    rintro dir (rfl | rfl)
    · exact oneName_inv
    · exact DirStart.inv ⟨rfl, fun _ => rfl⟩
  oldName := ⟨Nat.one_pos, show twoDirsNames 1 [98] ≠ none by decide⟩
  newName := ⟨Nat.one_pos, iff_of_true rfl rfl⟩
  apart := by
    intro heq
    cases heq
  linked := by
    intro dir name p hp
    unfold twoDirsNames at hp
    split at hp
    · have hnames : oneName.names = Function.update (fun _ => none) [98] (some 4096) := rfl
      rw [hnames] at hp
      by_cases hname : name = [98]
      · subst hname
        rw [Function.update_self, Option.some.injEq] at hp
        exact hp.symm
      · rw [Function.update_of_ne hname] at hp
        cases hp
    · cases hp
  lastLink := fun hne => absurd rfl hne
  linkOld := by
    intro p hp
    cases hp
    decide
  newAppend := by
    rintro p hp rfl
    exact h hp
  slab := by
    intro addr _ hmem
    cases hmem

theorem novaRename_unchanged_iff_noRoom :
    RenameUnchanged plainDirEnv (moveName (.refused .enospc none) (.appended 8192)) (fun _ p => p = 4096) twoDirs
        (novaRename plainDirEnv (moveName (.refused .enospc none) (.appended 8192)) twoDirs).1 ↔
      (moveName (.refused .enospc none) (.appended 8192)).early ≠ none ∨
        LinkRefused (moveName (.refused .enospc none) (.appended 8192)) twoDirs ∨
        (LinkKept (moveName (.refused .enospc none) (.appended 8192)) twoDirs ∧
          (((moveName (.refused .enospc none) (.appended 8192)).changeParent = true ∧
              (moveName (.refused .enospc none) (.appended 8192)).fatherVerifies = false) ∨
            ((moveName (.refused .enospc none) (.appended 8192)).newInode = none ∧
              NewNameRefused (moveName (.refused .enospc none) (.appended 8192)) (twoDirsNames 2)))) :=
  novaRename_unchanged_iff (moveName_ready (by decide))

/-- The log of the old directory has no room for the removal: the rename fails, the file is
found under its new name, and its old name is gone. -/
theorem novaRename_fails_half_done :
    RenameReady plainDirEnv (moveName (.appended 8192) (.refused .enospc none)) (fun _ p => p = 4096) twoDirsNames
        twoDirs ∧
      (novaRename plainDirEnv (moveName (.appended 8192) (.refused .enospc none)) twoDirs).2 = .error .enospc ∧
      novaFindDentry plainDirEnv (twoDirs.dirs 2) [99] = none ∧
      novaFindDentry plainDirEnv
        ((novaRename plainDirEnv (moveName (.appended 8192) (.refused .enospc none)) twoDirs).1.dirs 2) [99] = some 8192 ∧
      novaFindDentry plainDirEnv (twoDirs.dirs 1) [98] = some 4096 ∧
      novaFindDentry plainDirEnv
        ((novaRename plainDirEnv (moveName (.appended 8192) (.refused .enospc none)) twoDirs).1.dirs 1) [98] = none :=
  ⟨moveName_ready (by decide), by decide +kernel, by decide +kernel, by decide +kernel, by decide +kernel,
    by decide +kernel⟩

end

end Parfs
