/-
A rebuilt directory is the one that was in use.

Of the dentries in the log those that are not invalid count.  Replaying them gives the tree of
the directory in use: that is the invariant.  A dentry that is removed in place was the last
one of its name, so it can be left out; one that is removed by another dentry is answered by
it, and the two can be left out together, which is all `nova_invalidate_dentries` does.  A
removal may have been done in any of these ways, and in any of these states a rebuild finds
the same names.

The link count comes from the dentry or link change with the largest transaction, and so does
`last_dentry`.  What is changed in place is also stamped again, so the last thing that was done
is the newest, wherever it stands in the log.
-/
import Parfs.Lib.Replay
import Parfs.Lib.Run
import Parfs.DirRebuild
import Parfs.Proofs.Readdir

namespace Parfs

open Lib

variable {env : BallocEnv}

/-! ### What a call that succeeds has done -/

section Calls

variable {d d' : NovaDir} {c : DentryCall} {update u : NovaInodeUpdate}

/-- A name that was added. -/
theorem novaAddDentry_ok {ino : Nat} {slab : Option Nat} (h : DirNodesOk env d.nodes)
    (hslab : ∀ addr, slab = some addr → addr ∉ d.nodes.map RangeNode.addr)
    (hrun : novaAddDentry env d c ino slab update = (d', .ok u)) :
    ∃ w tree, c.name ≠ [] ∧ c.append = .appended w ∧
      u = { update with currEntry := w, tail := w + novaDirLogRecLen c.name.length } ∧
      d' = { d.setDentry w (novaUpdateNewDentry d c ino) with
        rbTree := tree, lastDentry := w, transId := d.transId + 1 } ∧
      DirNodesOk env tree.toList ∧ dirTable d.nodes (dirKey c.name) = none ∧
      dirTable tree.toList = Function.update (dirTable d.nodes) (dirKey c.name) (some w) := by
  unfold novaAddDentry at hrun
  by_cases hname : c.name.length = 0
  · rw [if_pos hname] at hrun
    simp at hrun
  · rw [if_neg hname] at hrun
    unfold novaAppendDentry at hrun
    rcases happend : c.append with ⟨e, _ | w⟩ | w
    · rw [happend] at hrun
      simp at hrun
    · rw [happend] at hrun
      simp at hrun
    · rw [happend] at hrun
      dsimp only at hrun
      let stored : NovaDir := { d.setDentry w (novaUpdateNewDentry d c ino) with lastDentry := w }
      rcases novaInsertDirTree_spec (d := stored) h c.name w hslab with ⟨tree, hins, hfree, hnodes, htable⟩ | ⟨e, hins⟩
      · rw [hins] at hrun
        obtain ⟨hd, hu⟩ := Prod.mk.inj hrun
        have hu := Except.ok.inj hu
        exact ⟨w, tree, by simpa using hname, rfl, hu.symm, hd.symm, hnodes, hfree, htable⟩
      · rw [hins] at hrun
        obtain ⟨-, hu⟩ := Prod.mk.inj hrun
        simp [Except.map] at hu

/-- Strings of one length that do not differ, one of them without a null character. -/
theorem strncmp_eq : ∀ {as bs : List UInt8}, as.length = bs.length → 0 ∉ bs → strncmp as bs bs.length = false →
    as = bs := by
  intro as
  induction as with
  | nil =>
      intro bs hlen _ _
      exact (List.eq_nil_of_length_eq_zero hlen.symm).symm
  | cons a as ih =>
      intro bs hlen hnul hcmp
      cases bs with
      | nil => simp at hlen
      | cons b bs =>
          rw [List.mem_cons, not_or] at hnul
          simp only [strncmp, List.length_cons, Bool.or_eq_false_iff, Bool.and_eq_false_iff, decide_eq_false_iff_not,
            not_not] at hcmp
          obtain ⟨rfl, h0 | hrest⟩ := hcmp
          · exact absurd h0.symm hnul.1
          · rw [ih (by simpa using hlen) hnul.2 hrest]

/-- Names have no null characters, so a dentry that matches a name has it. -/
theorem novaCheckDentryMatch_eq {e : LogDentry} {name : List UInt8} (hnul : 0 ∉ name)
    (h : novaCheckDentryMatch e name = false) : e.name = name := by
  unfold novaCheckDentryMatch at h
  rw [Bool.or_eq_false_iff, decide_eq_false_iff_not, not_not] at h
  exact strncmp_eq h.1 hnul h.2

/-- A name that was removed: its dentry is marked where it stands, or another one is appended. -/
theorem novaRemoveDentry_ok {rename verifies : Bool} (h : DirNodesOk env d.nodes)
    (hrun : novaRemoveDentry env d c rename verifies update = (d', .ok u)) :
    ∃ p tree, c.name ≠ [] ∧ dirTable d.nodes (dirKey c.name) = some p ∧ (d.dentries p).ino ≠ 0 ∧ (d.dentries p).invalid = false ∧
      novaCheckDentryMatch (d.dentries p) c.name = false ∧ DirNodesOk env tree.toList ∧
      dirTable tree.toList = Function.update (dirTable d.nodes) (dirKey c.name) none ∧
      ((u.createDentry = none ∧ u.deleteDentry = none ∧
          d' = { d.setDentry p (novaInplaceUpdateDentry d c (d.dentries p)) with
            rbTree := tree, lastDentry := p, transId := d.transId + 1 }) ∨
        ∃ w, c.append = .appended w ∧ u.createDentry = some p ∧ u.deleteDentry = some w ∧
          d' = { d.setDentry w (novaUpdateNewDentry d c 0) with
            rbTree := tree, lastDentry := w, transId := d.transId + 1 }) := by
  unfold novaRemoveDentry at hrun
  dsimp only at hrun
  by_cases hname : c.name.length = 0
  · rw [if_pos hname] at hrun
    simp at hrun
  · rw [if_neg hname] at hrun
    cases htable : dirTable d.nodes (dirKey c.name) with
    | none =>
        have hmiss : novaRemoveDirTree env d c.name verifies = (d, .error .einval) := by
          unfold novaRemoveDirTree
          rcases novaFindDirnode_spec h (dirKey c.name) with ⟨n, -, -, -, -, -, hsome⟩ | ⟨res, hfind, -⟩
          · rw [NovaDir.nodes, hsome] at htable
            simp at htable
          · rw [show (bkdrHash c.name).toNat = dirKey c.name from rfl, hfind]
        rw [hmiss] at hrun
        simp at hrun
    | some p =>
        obtain ⟨tree, hfst, hnodes, htable', hsnd⟩ := novaRemoveDirTree_spec c.name h htable verifies
        by_cases hok : verifies = true ∧ (d.dentries p).ino ≠ 0 ∧ (d.dentries p).invalid = false ∧
            novaCheckDentryMatch (d.dentries p) c.name = false
        · rw [if_pos hok] at hsnd
          have htree : novaRemoveDirTree env d c.name verifies = ({ d with rbTree := tree }, .ok p) := Prod.ext hfst hsnd
          rw [htree] at hrun
          dsimp only at hrun
          refine ⟨p, tree, by simpa using hname, rfl, hok.2.1, hok.2.2.1, hok.2.2.2, hnodes, htable', ?_⟩
          by_cases hplace : (!rename) = true ∧ (d.dentries p).epochId = c.epochId
          · rw [if_pos hplace] at hrun
            left
            obtain ⟨hd, hu⟩ := Prod.mk.inj hrun
            have hu := Except.ok.inj hu
            refine ⟨?_, ?_, hd.symm⟩
            · rw [← hu]
              split <;> rfl
            · rw [← hu]
              split <;> rfl
          · rw [if_neg hplace] at hrun
            right
            unfold novaAppendDentry at hrun
            rcases happend : c.append with ⟨e, _ | w⟩ | w
            · rw [happend] at hrun
              simp at hrun
            · rw [happend] at hrun
              simp at hrun
            · rw [happend] at hrun
              obtain ⟨hd, hu⟩ := Prod.mk.inj hrun
              have hu := Except.ok.inj hu
              refine ⟨w, rfl, ?_, ?_, hd.symm⟩
              · rw [← hu]
              · rw [← hu]
        · rw [if_neg hok] at hsnd
          have htree : novaRemoveDirTree env d c.name verifies = ({ d with rbTree := tree }, .error .einval) :=
            Prod.ext hfst hsnd
          rw [htree] at hrun
          simp at hrun

end Calls

/-! ### The entries of a log -/

/-- The addresses of the dentries of a log. -/
def dentriesOf (log : List DirRecord) : List Nat := log.filterMap DirRecord.dentry

def DirRecord.attr : DirRecord → Option Nat
  | setAttr p => some p
  | linkChange _ => none
  | dirLog _ => none

def DirRecord.change : DirRecord → Option Nat
  | setAttr _ => none
  | linkChange p => some p
  | dirLog _ => none

def attrsOf (log : List DirRecord) : List Nat := log.filterMap DirRecord.attr

def changesOf (log : List DirRecord) : List Nat := log.filterMap DirRecord.change

/-- The entries that carry a link count. -/
def linkedOf (log : List DirRecord) : List DirRecord := log.filter fun r => r.attr.isNone

/-- The dentries that count. -/
def validOf (f : Nat → LogDentry) (log : List DirRecord) : List Nat :=
  (dentriesOf log).filter fun p => !(f p).invalid

def dentryKey (f : Nat → LogDentry) (p : Nat) : Nat := dirKey (f p).name

/-- What a dentry puts under its name; one without an inode takes the name out. -/
def dentryPut (f : Nat → LogDentry) (p : Nat) : Option Nat := if (f p).ino ≠ 0 then some p else none

/-- The transaction of a dentry or a link change. -/
def DirImage.stamp (img : DirImage) : DirRecord → Nat
  | .setAttr _ => 0
  | .linkChange p => (img.changes p).transId
  | .dirLog p => (img.dentries p).transId

def DirImage.links (img : DirImage) : DirRecord → Nat
  | .setAttr _ => 0
  | .linkChange p => (img.changes p).links
  | .dirLog p => (img.dentries p).linksCount

def NovaSetattrLogentry.owner (e : NovaSetattrLogentry) : Nat × Nat × Nat := (e.mode, e.uid, e.gid)

def NovaInodeRebuild.owner (reb : NovaInodeRebuild) : Nat × Nat × Nat := (reb.iMode, reb.iUid, reb.iGid)

section Lists

variable {f : Nat → LogDentry} {log : List DirRecord} {p : Nat}

@[simp] theorem dentriesOf_nil : dentriesOf [] = [] := rfl
@[simp] theorem dentriesOf_setAttr : dentriesOf (.setAttr p :: log) = dentriesOf log := rfl
@[simp] theorem dentriesOf_linkChange : dentriesOf (.linkChange p :: log) = dentriesOf log := rfl
@[simp] theorem dentriesOf_dirLog : dentriesOf (.dirLog p :: log) = p :: dentriesOf log := rfl
@[simp] theorem attrsOf_nil : attrsOf [] = [] := rfl
@[simp] theorem attrsOf_setAttr : attrsOf (.setAttr p :: log) = p :: attrsOf log := rfl
@[simp] theorem attrsOf_linkChange : attrsOf (.linkChange p :: log) = attrsOf log := rfl
@[simp] theorem attrsOf_dirLog : attrsOf (.dirLog p :: log) = attrsOf log := rfl
@[simp] theorem changesOf_nil : changesOf [] = [] := rfl
@[simp] theorem changesOf_setAttr : changesOf (.setAttr p :: log) = changesOf log := rfl
@[simp] theorem changesOf_linkChange : changesOf (.linkChange p :: log) = p :: changesOf log := rfl
@[simp] theorem changesOf_dirLog : changesOf (.dirLog p :: log) = changesOf log := rfl
@[simp] theorem linkedOf_nil : linkedOf [] = [] := rfl
@[simp] theorem linkedOf_setAttr : linkedOf (.setAttr p :: log) = linkedOf log := rfl
@[simp] theorem linkedOf_linkChange : linkedOf (.linkChange p :: log) = .linkChange p :: linkedOf log := rfl
@[simp] theorem linkedOf_dirLog : linkedOf (.dirLog p :: log) = .dirLog p :: linkedOf log := rfl
@[simp] theorem validOf_nil : validOf f [] = [] := rfl
@[simp] theorem validOf_setAttr : validOf f (.setAttr p :: log) = validOf f log := rfl
@[simp] theorem validOf_linkChange : validOf f (.linkChange p :: log) = validOf f log := rfl

theorem validOf_dirLog :
    validOf f (.dirLog p :: log) = if (f p).invalid then validOf f log else p :: validOf f log := by
  unfold validOf
  rw [dentriesOf_dirLog, List.filter_cons]
  cases (f p).invalid <;> simp

theorem mem_dentriesOf : p ∈ dentriesOf log ↔ .dirLog p ∈ log := by
  induction log with
  | nil => simp
  | cons r log ih => cases r <;> simp [ih]

theorem mem_changesOf : p ∈ changesOf log ↔ .linkChange p ∈ log := by
  induction log with
  | nil => simp
  | cons r log ih => cases r <;> simp [ih]

theorem mem_validOf : p ∈ validOf f log ↔ .dirLog p ∈ log ∧ (f p).invalid = false := by
  unfold validOf
  rw [List.mem_filter, mem_dentriesOf]
  simp

theorem dentriesOf_nodup (h : log.Nodup) : (dentriesOf log).Nodup := by
  refine h.filterMap fun r r' q hr hr' => ?_
  cases r <;> cases r' <;> simp_all [DirRecord.dentry]

theorem validOf_nodup (h : log.Nodup) : (validOf f log).Nodup := (dentriesOf_nodup h).filter _

theorem linkedOf_nodup (h : log.Nodup) : (linkedOf log).Nodup := h.filter _

end Lists

/-! ### The loop -/

section Loop

variable {img : DirImage} {verifies : DirRecord → Bool} {slab : Nat → List Nat → Option Nat} {p : Nat}

/-- A node is there whenever one is needed, and is not in use. -/
def SlabGrants (slab : Nat → List Nat → Option Nat) : Prop := ∀ p used, ∃ addr, slab p used = some addr ∧ addr ∉ used

/-- The header's `last_dentry` is the newest of the dentries so far. -/
def LastDentry (f : Nat → LogDentry) (last : Nat) (x : Nat × Nat) : Prop :=
  last = x.2 ∧ (last = 0 → x.1 = 0) ∧ (last ≠ 0 → x.1 = (f last).transId)

theorem LastDentry.step {d : NovaDir} {x : Nat × Nat} (h : LastDentry d.dentries d.lastDentry x) (hp : p ≠ 0) :
    LastDentry d.dentries (novaReassignLastDentry d p).lastDentry
      (takeNewest (fun q => (d.dentries q).transId) id x p) := by
  obtain ⟨hlast, hzero, hstamp⟩ := h
  unfold novaReassignLastDentry takeNewest
  by_cases h0 : d.lastDentry = 0
  · rw [if_pos h0, if_pos (by rw [hzero h0]; exact Nat.zero_le _)]
    exact ⟨rfl, fun h => absurd h hp, fun _ => rfl⟩
  · rw [if_neg h0, hstamp h0]
    by_cases hge : (d.dentries p).transId ≥ (d.dentries d.lastDentry).transId
    · rw [if_pos hge, if_pos hge]
      exact ⟨rfl, fun h => absurd h hp, fun _ => rfl⟩
    · rw [if_neg hge, if_neg hge]
      exact ⟨hlast, hzero, hstamp⟩

theorem novaReassignLastDentry_rest (d : NovaDir) (p : Nat) :
    (novaReassignLastDentry d p).rbTree = d.rbTree ∧ (novaReassignLastDentry d p).dentries = d.dentries := by
  unfold novaReassignLastDentry
  split
  · exact ⟨rfl, rfl⟩
  · split <;> exact ⟨rfl, rfl⟩

/-- In a replay the name goes out of the tree if it is there. -/
theorem novaReplayRemoveDentry_spec {d : NovaDir} (h : DirNodesOk env d.nodes) (name : List UInt8) :
    ∃ tree, novaReplayRemoveDentry env d name = { d with rbTree := tree } ∧ DirNodesOk env tree.toList ∧
      dirTable tree.toList = Function.update (dirTable d.nodes) (dirKey name) none := by
  have hsame : novaReplayRemoveDentry env d name = (novaRemoveDirTree env d name false).1 := by
    unfold novaReplayRemoveDentry novaRemoveDirTree
    rcases novaFindDirnode env d.rbTree (bkdrHash name).toNat with ⟨_ | _, _ | n⟩ <;> rfl
  cases htable : dirTable d.nodes (dirKey name) with
  | some p =>
      obtain ⟨tree, hfst, hnodes, htable', -⟩ := novaRemoveDirTree_spec name h htable false
      exact ⟨tree, hsame.trans hfst, hnodes, htable'⟩
  | none =>
      refine ⟨d.rbTree, ?_, h, ?_⟩
      · rw [hsame]
        unfold novaRemoveDirTree
        rcases novaFindDirnode_spec h (dirKey name) with ⟨n, -, -, -, -, -, hsome⟩ | ⟨res, hfind, -⟩
        · rw [NovaDir.nodes, hsome] at htable
          simp at htable
        · rw [show (bkdrHash name).toNat = dirKey name from rfl, hfind]
      · rw [← htable, Function.update_eq_self]
        rfl

/-- In a replay the name goes into the tree if its hash is free. -/
theorem novaReplayAddDentry_spec {d : NovaDir} (h : DirNodesOk env d.nodes) (hslab : SlabGrants slab)
    (hname : (d.dentries p).name ≠ []) (hfree : dirTable d.nodes (dentryKey d.dentries p) = none) :
    ∃ tree, novaReplayAddDentry env d p (slab p (d.rbTree.toList.map RangeNode.addr)) =
        ({ d with rbTree := tree }, .ok ()) ∧ DirNodesOk env tree.toList ∧
      dirTable tree.toList = Function.update (dirTable d.nodes) (dentryKey d.dentries p) (some p) := by
  obtain ⟨addr, haddr, hfresh⟩ := hslab p (d.rbTree.toList.map RangeNode.addr)
  have hslab' : ∀ a, slab p (d.rbTree.toList.map RangeNode.addr) = some a → a ∉ d.nodes.map RangeNode.addr := by
    intro a ha
    rw [haddr, Option.some.injEq] at ha
    rw [← ha]
    exact hfresh
  unfold novaReplayAddDentry
  dsimp only
  rw [if_neg (by simpa using hname)]
  rcases novaInsertDirTree_spec h (d.dentries p).name p hslab' with ⟨tree, hins, -, hnodes, htable⟩ | ⟨e, hins⟩
  · exact ⟨tree, hins, hnodes, htable⟩
  · have hok := (novaInsertDirTree_ok_iff h (d.dentries p).name p hslab').mpr ⟨by simp [haddr], hfree⟩
    rw [hins] at hok
    simp at hok

/-- What the loop makes of a dentry: the record is replayed, unless it is invalid. -/
theorem novaRebuildHandleDentry_spec {s : DirRebuild} {t : Nat → Option Nat} (h : DirNodesOk env s.dir.nodes)
    (hslab : SlabGrants slab) (hname : (s.dir.dentries p).name ≠ [])
    (hreplay : (if (s.dir.dentries p).invalid then some (dirTable s.dir.nodes) else
      replayRecord (dentryKey s.dir.dentries) (dentryPut s.dir.dentries) (dirTable s.dir.nodes) p) = some t) :
    ∃ tree, novaRebuildHandleDentry env s p (slab p (s.dir.rbTree.toList.map RangeNode.addr)) =
        ({ s with
            dir := { novaReassignLastDentry s.dir p with rbTree := tree }
            reb := if (s.dir.dentries p).transId ≥ s.reb.transId then
              { novaRebuildDirTimeAndSize s.reb (s.dir.dentries p) with transId := (s.dir.dentries p).transId }
              else s.reb }, .ok ()) ∧
      DirNodesOk env tree.toList ∧ dirTable tree.toList = t := by
  obtain ⟨htree, hdentries⟩ := novaReassignLastDentry_rest s.dir p
  have hnodes : (novaReassignLastDentry s.dir p).nodes = s.dir.nodes := congrArg RbTree.toList htree
  have h' : DirNodesOk env (novaReassignLastDentry s.dir p).nodes := hnodes ▸ h
  rw [← hdentries, ← hnodes] at hreplay
  rw [← hdentries] at hname ⊢
  rw [← htree]
  unfold novaRebuildHandleDentry
  dsimp only
  generalize novaReassignLastDentry s.dir p = d at *
  by_cases hinvalid : (d.dentries p).invalid = true
  · rw [if_pos hinvalid, Option.some.injEq] at hreplay
    rw [if_pos hinvalid]
    exact ⟨d.rbTree, rfl, h', hreplay⟩
  · rw [if_neg hinvalid] at hreplay
    rw [if_neg hinvalid]
    by_cases hino : (d.dentries p).ino > 0
    · have hput : dentryPut d.dentries p = some p := if_pos (Nat.ne_of_gt hino)
      obtain ⟨hfree, rfl⟩ := (replayRecord_put hput).mp hreplay
      obtain ⟨tree, hadd, hok, htable⟩ := novaReplayAddDentry_spec h' hslab hname hfree
      rw [if_pos hino, hadd]
      exact ⟨tree, rfl, hok, htable⟩
    · have hput : dentryPut d.dentries p = none := if_neg (by omega)
      rw [replayRecord_delete hput, Option.some.injEq] at hreplay
      obtain ⟨tree, hremove, hok, htable⟩ := novaReplayRemoveDentry_spec h' (d.dentries p).name
      rw [if_neg hino, hremove]
      exact ⟨tree, rfl, hok, htable.trans hreplay⟩

/-- What the loop has made of some of the entries. -/
structure LoopDone (env : BallocEnv) (img : DirImage) (rs : List DirRecord) (s s' : DirRebuild) (t : Nat → Option Nat)
    (x : Nat × Nat) : Prop where
  nodes : DirNodesOk env s'.dir.nodes
  table : dirTable s'.dir.nodes = t
  dentries : s'.dir.dentries = s.dir.dentries
  logTail : s'.dir.logTail = s.dir.logTail
  links : (s'.reb.transId, s'.reb.iLinksCount) =
    (linkedOf rs).foldl (takeNewest img.stamp img.links) (s.reb.transId, s.reb.iLinksCount)
  last : LastDentry img.dentries s'.dir.lastDentry
    ((dentriesOf rs).foldl (takeNewest (fun q => (img.dentries q).transId) id) x)
  lastSetattr : s'.lastSetattr = (attrsOf rs).getLastD s.lastSetattr
  lastLinkChange : s'.lastLinkChange = (changesOf rs).getLastD s.lastLinkChange
  owner : s'.reb.owner = ((attrsOf rs).map fun p => (img.attrs p).owner).getLastD s.reb.owner

theorem takeNewest_links {A : Type} (reb reb' : NovaInodeRebuild) (stamp value : A → Nat) (r : A)
    (hstamp : reb'.transId = stamp r) (hvalue : reb'.iLinksCount = value r) :
    ((if stamp r ≥ reb.transId then reb' else reb).transId, (if stamp r ≥ reb.transId then reb' else reb).iLinksCount) =
      takeNewest stamp value (reb.transId, reb.iLinksCount) r := by
  unfold takeNewest
  by_cases hge : stamp r ≥ reb.transId
  · simp only [if_pos hge, hstamp, hvalue]
  · simp only [if_neg hge]

/-- **The loop replays the log.** -/
theorem rebuildDirLoop_spec (rs : List DirRecord) : ∀ {s : DirRebuild} {t : Nat → Option Nat} {x : Nat × Nat},
    (∀ r, verifies r = true) → SlabGrants slab → DirNodesOk env s.dir.nodes → s.dir.dentries = img.dentries →
    (∀ p ∈ dentriesOf rs, p ≠ 0 ∧ (img.dentries p).name ≠ []) → LastDentry img.dentries s.dir.lastDentry x →
    replay (dentryKey img.dentries) (dentryPut img.dentries) (validOf img.dentries rs) (dirTable s.dir.nodes) = some t →
    ∃ s', rebuildDirLoop env img verifies slab rs s = (s', .ok true) ∧ LoopDone env img rs s s' t x := by
  induction rs with
  | nil =>
      intro s t x _ _ hnodes _ _ hlast hreplay
      rw [validOf_nil, replay_nil, Option.some.injEq] at hreplay
      exact ⟨s, rfl, hnodes, hreplay, rfl, rfl, rfl, hlast, rfl, rfl, rfl⟩
  | cons r rs ih =>
      intro s t x hmedia hslab hnodes hdentries hnames hlast hreplay
      cases r with
      | setAttr p =>
          rw [rebuildDirLoop, if_neg (by simp [hmedia])]
          obtain ⟨s', hloop, hdone⟩ := ih (s := { s with reb := s.reb.applySetattr (img.attrs p), lastSetattr := p })
            hmedia hslab hnodes hdentries hnames hlast hreplay
          refine ⟨s', hloop, hdone.nodes, hdone.table, hdone.dentries, hdone.logTail, hdone.links, hdone.last, ?_,
            hdone.lastLinkChange, ?_⟩
          · rw [attrsOf_setAttr, List.getLastD_cons]
            exact hdone.lastSetattr
          · rw [attrsOf_setAttr, List.map_cons, List.getLastD_cons]
            exact hdone.owner
      | linkChange p =>
          rw [rebuildDirLoop, if_neg (by simp [hmedia])]
          obtain ⟨s', hloop, hdone⟩ := ih (s := s.linkChange (img.changes p) p) hmedia hslab hnodes hdentries hnames
            hlast hreplay
          refine ⟨s', hloop, hdone.nodes, hdone.table, hdone.dentries, hdone.logTail, ?_, hdone.last, hdone.lastSetattr,
            ?_, ?_⟩
          · rw [linkedOf_linkChange, List.foldl_cons, hdone.links]
            congr 1
            exact takeNewest_links s.reb
              { novaApplyLinkChangeEntry s.reb (img.changes p) with transId := (img.changes p).transId }
              img.stamp img.links (DirRecord.linkChange p) rfl rfl
          · rw [changesOf_linkChange, List.getLastD_cons]
            exact hdone.lastLinkChange
          · have howner : (s.linkChange (img.changes p) p).reb.owner = s.reb.owner := by
              unfold DirRebuild.linkChange
              dsimp only
              split <;> rfl
            rw [attrsOf_linkChange, ← howner]
            exact hdone.owner
      | dirLog p =>
          obtain ⟨hp, hname⟩ := hnames p (by simp)
          have hstep : ∃ t₁, (if (s.dir.dentries p).invalid then some (dirTable s.dir.nodes) else
              replayRecord (dentryKey s.dir.dentries) (dentryPut s.dir.dentries) (dirTable s.dir.nodes) p) = some t₁ ∧
              replay (dentryKey img.dentries) (dentryPut img.dentries) (validOf img.dentries rs) t₁ = some t := by
            rw [validOf_dirLog] at hreplay
            rw [hdentries]
            by_cases hinvalid : (img.dentries p).invalid = true
            · rw [if_pos hinvalid] at hreplay ⊢
              exact ⟨_, rfl, hreplay⟩
            · rw [if_neg hinvalid, replay_cons, Option.bind_eq_some_iff] at hreplay
              rw [if_neg hinvalid]
              exact hreplay
          obtain ⟨t₁, ht₁, hrest⟩ := hstep
          obtain ⟨tree, hhandle, hok, htable⟩ := novaRebuildHandleDentry_spec hnodes hslab
            (hdentries.symm ▸ hname) ht₁
          have hlast' := LastDentry.step (d := s.dir) (hdentries.symm ▸ hlast) hp
          rw [hdentries] at hlast' hhandle
          have hrest' : (novaReassignLastDentry s.dir p).dentries = img.dentries :=
            (novaReassignLastDentry_rest s.dir p).2.trans hdentries
          rw [rebuildDirLoop, if_neg (by simp [hmedia]), hhandle]
          dsimp only
          obtain ⟨s', hloop, hdone⟩ := ih (s := { s with
              dir := { novaReassignLastDentry s.dir p with rbTree := tree }
              reb := if (img.dentries p).transId ≥ s.reb.transId then
                { novaRebuildDirTimeAndSize s.reb (img.dentries p) with transId := (img.dentries p).transId }
                else s.reb })
            hmedia hslab hok hrest' (fun q hq => hnames q (by simp [hq])) hlast' (htable.symm ▸ hrest)
          refine ⟨s', hloop, hdone.nodes, hdone.table, ?_, ?_, ?_, ?_, hdone.lastSetattr, hdone.lastLinkChange, ?_⟩
          · exact hdone.dentries.trans (novaReassignLastDentry_rest s.dir p).2
          · rw [hdone.logTail]
            unfold novaReassignLastDentry
            split
            · rfl
            · split <;> rfl
          · rw [linkedOf_dirLog, List.foldl_cons, hdone.links]
            congr 1
            exact takeNewest_links s.reb
              { novaRebuildDirTimeAndSize s.reb (img.dentries p) with transId := (img.dentries p).transId }
              img.stamp img.links (DirRecord.dirLog p) rfl rfl
          · rw [dentriesOf_dirLog, List.foldl_cons]
            exact hdone.last
          · rw [attrsOf_dirLog, hdone.owner]
            congr 1
            dsimp only
            split <;> rfl

end Loop

/-! ### The invariant of a directory in use -/

section Live

variable {s t : LiveDir} {ps : List (Nat × Nat)} {x : Nat × Nat} {n : Nat} {f g : Nat → LogDentry} {l : List Nat}
  {log : List DirRecord} {p w : Nat} {d : NovaDir}

@[simp] theorem NovaDir.setDentry_self (e : LogDentry) : (d.setDentry p e).dentries p = e := if_pos rfl

theorem NovaDir.setDentry_of_ne {q : Nat} (h : q ≠ p) (e : LogDentry) : (d.setDentry p e).dentries q = d.dentries q :=
  if_neg h

@[simp] theorem dentriesOf_append (a b : List DirRecord) : dentriesOf (a ++ b) = dentriesOf a ++ dentriesOf b :=
  List.filterMap_append

@[simp] theorem attrsOf_append (a b : List DirRecord) : attrsOf (a ++ b) = attrsOf a ++ attrsOf b :=
  List.filterMap_append

@[simp] theorem changesOf_append (a b : List DirRecord) : changesOf (a ++ b) = changesOf a ++ changesOf b :=
  List.filterMap_append

@[simp] theorem linkedOf_append (a b : List DirRecord) : linkedOf (a ++ b) = linkedOf a ++ linkedOf b :=
  List.filter_append a b

theorem validOf_append (a b : List DirRecord) : validOf f (a ++ b) = validOf f a ++ validOf f b := by
  unfold validOf
  rw [dentriesOf_append, List.filter_append]

theorem validOf_congr (h : ∀ q, .dirLog q ∈ log → (g q).invalid = (f q).invalid) : validOf g log = validOf f log := by
  unfold validOf
  refine List.filter_congr fun q hq => ?_
  rw [h q (mem_dentriesOf.mp hq)]

theorem dentryPut_some {v : Nat} : dentryPut f p = some v ↔ (f p).ino ≠ 0 ∧ p = v := by
  unfold dentryPut
  split <;> simp_all

theorem dentryPut_none : dentryPut f p = none ↔ (f p).ino = 0 := by
  unfold dentryPut
  split <;> simp_all

/-- What a replay sees of a dentry: the name, and whether it has an inode. -/
def SameDentry (f g : Nat → LogDentry) (p : Nat) : Prop := (g p).name = (f p).name ∧ ((g p).ino = 0 ↔ (f p).ino = 0)

theorem SameDentry.of_eq (h : g p = f p) : SameDentry f g p := by
  unfold SameDentry
  rw [h]
  exact ⟨rfl, Iff.rfl⟩

/-- A replay looks at no more. -/
theorem replay_dentries_congr {t : Nat → Option Nat} (h : ∀ q ∈ l, SameDentry f g q) :
    replay (dentryKey g) (dentryPut g) l t = replay (dentryKey f) (dentryPut f) l t := by
  refine replay_congr fun q hq => ?_
  obtain ⟨hname, hino⟩ := h q hq
  unfold dentryKey dentryPut
  simp only [hname, hino, ne_eq, and_self]

/-- A dentry and the one that removes it, with no other dentry of the name between them. -/
structure DentryPair (f : Nat → LogDentry) (valid : List Nat) (x : Nat × Nat) : Prop where
  put : (f x.1).ino ≠ 0
  delete : (f x.2).ino = 0
  key : dentryKey f x.2 = dentryKey f x.1
  cut : ∃ A B C, valid = A ++ x.1 :: B ++ x.2 :: C ∧ ∀ q ∈ B, dentryKey f q ≠ dentryKey f x.1

theorem DentryPair.mem (h : DentryPair f l x) : x.1 ∈ l ∧ x.2 ∈ l := by
  obtain ⟨A, B, C, rfl, -⟩ := h.cut
  simp

theorem DentryPair.congr (h : DentryPair f l x) (hsame : ∀ q ∈ l, SameDentry f g q) :
    DentryPair g l x := by
  have hkey : ∀ q ∈ l, dentryKey g q = dentryKey f q := fun q hq => congrArg dirKey (hsame q hq).1
  obtain ⟨h1, h2⟩ := h.mem
  refine ⟨?_, ?_, ?_, ?_⟩
  · exact fun hino => h.put ((hsame _ h1).2.mp hino)
  · exact (hsame _ h2).2.mpr h.delete
  · rw [hkey _ h1, hkey _ h2]
    exact h.key
  · obtain ⟨A, B, C, hcut, hne⟩ := h.cut
    refine ⟨A, B, C, hcut, fun q hq => ?_⟩
    rw [hkey _ h1, hkey q (by rw [hcut]; simp [hq])]
    exact hne q hq

theorem DentryPair.append (h : DentryPair f l x) (q : Nat) : DentryPair f (l ++ [q]) x := by
  obtain ⟨A, B, C, hcut, hne⟩ := h.cut
  exact ⟨h.put, h.delete, h.key, A, B, C ++ [q], by simp [hcut], hne⟩

/-- Other dentries may go. -/
theorem DentryPair.filter (h : DentryPair f l x) (k : Nat → Bool) (h1 : k x.1 = true) (h2 : k x.2 = true) :
    DentryPair f (l.filter k) x := by
  obtain ⟨A, B, C, hcut, hne⟩ := h.cut
  refine ⟨h.put, h.delete, h.key, A.filter k, B.filter k, C.filter k, ?_, fun q hq => hne q (List.mem_filter.mp hq).1⟩
  rw [hcut, List.filter_append, List.filter_append, List.filter_cons, List.filter_cons, if_pos h1, if_pos h2]

/-- What is kept of a directory, while the pairs `ps` are going to be invalidated; `n` is the link
count that was written last. -/
structure LiveInv (env : BallocEnv) (s : LiveDir) (ps : List (Nat × Nat)) (n : Nat) : Prop where
  nodes : DirNodesOk env s.dir.nodes
  nodup : s.log.Nodup
  named : ∀ p ∈ dentriesOf s.log, p ≠ 0 ∧ (s.dir.dentries p).name ≠ []
  replays : replay (dentryKey s.dir.dentries) (dentryPut s.dir.dentries) (validOf s.dir.dentries s.log) (fun _ => none) =
    some (dirTable s.dir.nodes)
  pairs : ∀ x ∈ ps, DentryPair s.dir.dentries (validOf s.dir.dentries s.log) x
  apart : ps.Pairwise fun x y => x.1 ≠ y.1 ∧ x.2 ≠ y.2
  stamped : ∀ r ∈ linkedOf s.log, s.image.stamp r < s.dir.transId
  newest : ∃ r, Newest s.image.stamp (linkedOf s.log) r ∧ s.image.links r = n
  last : Newest (fun p => (s.dir.dentries p).transId) (dentriesOf s.log) s.dir.lastDentry
  lastChange : s.lastLinkChange = (changesOf s.log).getLastD 0
  lastSetattr : s.lastSetattr = (attrsOf s.log).getLastD 0
  owner : ((attrsOf s.log).map fun p => (s.attrs p).owner).getLastD s.pi.owner = (s.mode, s.uid, s.gid)
  father : .dirLog s.fatherEntry ∈ s.log ∧ (s.dir.dentries s.fatherEntry).name = [46, 46] ∧
    (s.dir.dentries s.fatherEntry).ino ≠ 0
  logHead : s.logHead ≠ 0

/-- A name that is in the tree: its dentry is the last that counts of all with its hash. -/
structure LastOf (s : LiveDir) (k p : Nat) (A B : List Nat) : Prop where
  key : dentryKey s.dir.dentries p = k
  ino : (s.dir.dentries p).ino ≠ 0
  cut : validOf s.dir.dentries s.log = A ++ p :: B
  out : p ∉ A ++ B
  after : ∀ q ∈ B, dentryKey s.dir.dentries q ≠ k
  without : replay (dentryKey s.dir.dentries) (dentryPut s.dir.dentries) (A ++ B) (fun _ => none) =
    some (Function.update (dirTable s.dir.nodes) k none)

theorem LiveInv.lastOf (h : LiveInv env s ps n) {k : Nat} (hp : dirTable s.dir.nodes k = some p) :
    ∃ A B, LastOf s k p A B := by
  obtain ⟨q, hq, hkey, hput⟩ := replay_mem h.replays hp (by simp)
  obtain ⟨hino, rfl⟩ := dentryPut_some.mp hput
  obtain ⟨A, B, hcut⟩ := List.append_of_mem hq
  have hnodup := validOf_nodup (f := s.dir.dentries) h.nodup
  rw [hcut] at hnodup
  have hout := (List.nodup_cons.mp (List.nodup_middle.mp hnodup)).1
  have hreplay := h.replays
  rw [hcut] at hreplay
  have hother : ∀ r ∈ B, dentryPut s.dir.dentries r ≠ some q := by
    intro r hr heq
    obtain ⟨-, rfl⟩ := dentryPut_some.mp heq
    exact hout (List.mem_append_right A hr)
  obtain ⟨hwithout, hafter⟩ := replay_drop_put hreplay hput (hkey.symm ▸ hp) hother
  exact ⟨A, B, hkey, hino, hcut, hout, hkey ▸ hafter, hkey ▸ hwithout⟩

/-- A pair that waits to be invalidated has nothing to do with the names in the tree. -/
theorem LiveInv.pair_ne (h : LiveInv env s ps n) {k : Nat} (hp : dirTable s.dir.nodes k = some p) (hx : x ∈ ps) :
    x.1 ≠ p ∧ x.2 ≠ p := by
  obtain ⟨A, B, hlast⟩ := h.lastOf hp
  have hpair := h.pairs x hx
  refine ⟨?_, ?_⟩
  · intro heq
    obtain ⟨A', B', C', hcut, -⟩ := hpair.cut
    have hput : dentryPut s.dir.dentries x.1 = some p := dentryPut_some.mpr ⟨hpair.put, heq⟩
    have hreplay := h.replays
    rw [hcut, List.append_assoc, List.cons_append] at hreplay
    have hnodup := validOf_nodup (f := s.dir.dentries) h.nodup
    rw [hcut, List.append_assoc, List.cons_append] at hnodup
    have hout := (List.nodup_cons.mp (List.nodup_middle.mp hnodup)).1
    have hother : ∀ r ∈ B' ++ x.2 :: C', dentryPut s.dir.dentries r ≠ some p := by
      intro r hr hr'
      obtain ⟨-, rfl⟩ := dentryPut_some.mp hr'
      exact hout (List.mem_append_right A' (heq ▸ hr))
    have hkey : dentryKey s.dir.dentries x.1 = k := heq.symm ▸ hlast.key
    obtain ⟨-, hne⟩ := replay_drop_put hreplay hput (hkey.symm ▸ hp) hother
    exact hne x.2 (by simp) hpair.key
  · rintro rfl
    exact hlast.ino hpair.delete

theorem mem_linkedOf_dirLog : .dirLog p ∈ linkedOf log ↔ .dirLog p ∈ log := by
  unfold linkedOf
  rw [List.mem_filter]
  simp [DirRecord.attr]

/-- The entries of a log keep their transactions as long as its dentries and link changes do. -/
theorem stamp_congr {img img' : DirImage} (hd : ∀ q, .dirLog q ∈ log → (img'.dentries q).transId = (img.dentries q).transId)
    (hc : ∀ q, .linkChange q ∈ log → (img'.changes q).transId = (img.changes q).transId) :
    ∀ r ∈ linkedOf log, img'.stamp r = img.stamp r := by
  intro r hr
  have hr := (List.mem_filter.mp hr).1
  cases r with
  | setAttr q => rfl
  | linkChange q => exact hc q hr
  | dirLog q => exact hd q hr

/-! ### Dentries come and go -/

/-- The directory once a dentry was appended. -/
def LiveDir.appended (s : LiveDir) (w : Nat) (e : LogDentry) (tree : RbTree RangeNode) : LiveDir :=
  s.logged { s.dir.setDentry w e with rbTree := tree, lastDentry := w, transId := s.dir.transId + 1 } (some w)

theorem LiveDir.appended_dentries {e : LogDentry} {tree : RbTree RangeNode} (hw : .dirLog w ∉ s.log) {q : Nat}
    (hq : .dirLog q ∈ s.log) : (s.appended w e tree).dir.dentries q = s.dir.dentries q := by
  refine if_neg ?_
  rintro rfl
  exact hw hq

theorem LiveDir.appended_validOf {e : LogDentry} {tree : RbTree RangeNode} (hw : .dirLog w ∉ s.log)
    (hvalid : e.invalid = false) :
    validOf (s.appended w e tree).dir.dentries (s.appended w e tree).log = validOf s.dir.dentries s.log ++ [w] := by
  have hself : (s.appended w e tree).dir.dentries w = e := if_pos rfl
  rw [show (s.appended w e tree).log = s.log ++ [.dirLog w] from rfl, validOf_append,
    validOf_congr fun q hq => congrArg LogDentry.invalid (appended_dentries hw hq), validOf_dirLog, hself, hvalid]
  rfl

/-- **A dentry that is appended** puts its name into the tree, or takes it out. -/
theorem LiveInv.appended (h : LiveInv env s ps n) {e : LogDentry} {tree : RbTree RangeNode} (hw0 : w ≠ 0)
    (hw : .dirLog w ∉ s.log) (hname : e.name ≠ []) (hvalid : e.invalid = false) (htrans : e.transId = s.dir.transId)
    (hok : DirNodesOk env tree.toList)
    (htable : (e.ino ≠ 0 ∧ dirTable s.dir.nodes (dirKey e.name) = none ∧
        dirTable tree.toList = Function.update (dirTable s.dir.nodes) (dirKey e.name) (some w)) ∨
      (e.ino = 0 ∧ dirTable tree.toList = Function.update (dirTable s.dir.nodes) (dirKey e.name) none)) :
    LiveInv env (s.appended w e tree) ps e.linksCount := by
  have hself : (s.appended w e tree).dir.dentries w = e := if_pos rfl
  have hother : ∀ q, .dirLog q ∈ s.log → (s.appended w e tree).dir.dentries q = s.dir.dentries q :=
    fun q hq => LiveDir.appended_dentries hw hq
  have hlog : (s.appended w e tree).log = s.log ++ [.dirLog w] := rfl
  have hvalidOf : validOf (s.appended w e tree).dir.dentries (s.appended w e tree).log =
      validOf s.dir.dentries s.log ++ [w] := LiveDir.appended_validOf hw hvalid
  have hsame : ∀ q ∈ validOf s.dir.dentries s.log, SameDentry s.dir.dentries (s.appended w e tree).dir.dentries q :=
    fun q hq => SameDentry.of_eq (hother q (mem_validOf.mp hq).1)
  have hstamp : ∀ r ∈ linkedOf s.log, (s.appended w e tree).image.stamp r = s.image.stamp r :=
    stamp_congr (fun q hq => congrArg (fun e : LogDentry => e.transId) (hother q hq)) fun _ _ => rfl
  have hself' : (s.appended w e tree).image.stamp (.dirLog w) = s.dir.transId :=
    (congrArg (fun e : LogDentry => e.transId) hself).trans htrans
  have hbelow : ∀ r ∈ linkedOf s.log, (s.appended w e tree).image.stamp r ≤
      (s.appended w e tree).image.stamp (.dirLog w) := by
    intro r hr
    rw [hstamp r hr, hself']
    exact Nat.le_of_lt (h.stamped r hr)
  have hdentry : ∀ q ∈ dentriesOf s.log, .dirLog q ∈ linkedOf s.log :=
    fun q hq => mem_linkedOf_dirLog.mpr (mem_dentriesOf.mp hq)
  refine ⟨hok, ?_, ?_, ?_, ?_, h.apart, ?_, ⟨.dirLog w, ?_, ?_⟩, ?_, ?_, ?_, ?_, ?_, h.logHead⟩
  · rw [hlog]
    refine List.nodup_append.mpr ⟨h.nodup, List.nodup_singleton _, fun r hr r' hr' heq => hw ?_⟩
    rwa [heq, List.mem_singleton.mp hr'] at hr
  · intro q hq
    rw [hlog, dentriesOf_append, List.mem_append] at hq
    rcases hq with hq | hq
    · rw [hother q (mem_dentriesOf.mp hq)]
      exact h.named q hq
    · obtain rfl : q = w := by simpa using hq
      rw [hself]
      exact ⟨hw0, hname⟩
  · rw [hvalidOf, replay_append, replay_dentries_congr hsame, h.replays, Option.bind_some, replay_cons]
    have hkey : dentryKey (s.appended w e tree).dir.dentries w = dirKey e.name :=
      congrArg (fun e : LogDentry => dirKey e.name) hself
    rcases htable with ⟨hino, hfree, htable⟩ | ⟨hino, htable⟩
    · have hput : dentryPut (s.appended w e tree).dir.dentries w = some w := dentryPut_some.mpr ⟨hself.symm ▸ hino, rfl⟩
      rw [(replayRecord_put hput).mpr ⟨by rw [hkey]; exact hfree, rfl⟩, hkey]
      exact congrArg some htable.symm
    · have hput : dentryPut (s.appended w e tree).dir.dentries w = none := dentryPut_none.mpr (hself.symm ▸ hino)
      rw [replayRecord_delete hput, hkey]
      exact congrArg some htable.symm
  · intro x hx
    rw [hvalidOf]
    exact ((h.pairs x hx).congr hsame).append w
  · intro r hr
    rw [hlog, linkedOf_append, List.mem_append] at hr
    rcases hr with hr | hr
    · rw [hstamp r hr]
      exact Nat.lt_succ_of_lt (h.stamped r hr)
    · obtain rfl : r = .dirLog w := by simpa using hr
      rw [hself']
      exact Nat.lt_succ_self _
  · rw [hlog, linkedOf_append]
    exact Newest.append hbelow
  · exact congrArg (fun e : LogDentry => e.linksCount) hself
  · rw [hlog, dentriesOf_append]
    exact Newest.append fun q hq => hbelow (.dirLog q) (hdentry q hq)
  · rw [hlog, changesOf_append, changesOf_dirLog, changesOf_nil, List.append_nil]
    exact h.lastChange
  · rw [hlog, attrsOf_append, attrsOf_dirLog, attrsOf_nil, List.append_nil]
    exact h.lastSetattr
  · rw [hlog, attrsOf_append, attrsOf_dirLog, attrsOf_nil, List.append_nil]
    exact h.owner
  · obtain ⟨hmem, hfather⟩ := h.father
    refine ⟨List.mem_append_left _ hmem, ?_⟩
    rw [show (s.appended w e tree).fatherEntry = s.fatherEntry from rfl, hother _ hmem]
    exact hfather

/-- The directory once a dentry was marked where it stands. -/
def LiveDir.markedAt (s : LiveDir) (p : Nat) (e : LogDentry) (tree : RbTree RangeNode) : LiveDir :=
  s.logged { s.dir.setDentry p e with rbTree := tree, lastDentry := p, transId := s.dir.transId + 1 } none

/-- **A dentry that is marked in place** takes its name out of the tree. -/
theorem LiveInv.markedAt (h : LiveInv env s ps n) {k : Nat} {e : LogDentry} {tree : RbTree RangeNode}
    (hp : dirTable s.dir.nodes k = some p) (hname : e.name = (s.dir.dentries p).name) (hinvalid : e.invalid = true)
    (htrans : e.transId = s.dir.transId) (hfather : (s.dir.dentries p).name ≠ [46, 46])
    (hok : DirNodesOk env tree.toList)
    (htable : dirTable tree.toList = Function.update (dirTable s.dir.nodes) k none) :
    LiveInv env (s.markedAt p e tree) ps e.linksCount := by
  obtain ⟨A, B, hlast⟩ := h.lastOf hp
  have hmem : p ∈ validOf s.dir.dentries s.log := by
    rw [hlast.cut]
    simp
  have hpair : ∀ x ∈ ps, x.1 ≠ p ∧ x.2 ≠ p := fun x hx => h.pair_ne hp hx
  have hself : (s.markedAt p e tree).dir.dentries p = e := if_pos rfl
  have hother : ∀ q, q ≠ p → (s.markedAt p e tree).dir.dentries q = s.dir.dentries q := fun q hq => if_neg hq
  have hlog : (s.markedAt p e tree).log = s.log := List.append_nil _
  have hvalidOf : validOf (s.markedAt p e tree).dir.dentries (s.markedAt p e tree).log =
      (validOf s.dir.dentries s.log).filter fun q => q ≠ p := by
    unfold validOf
    rw [hlog, List.filter_filter]
    refine List.filter_congr fun q _ => ?_
    by_cases hq : q = p
    · rw [hq, hself, hinvalid]
      simp
    · rw [hother q hq]
      simp [hq]
  have hfilter : (validOf s.dir.dentries s.log).filter (fun q => decide (q ≠ p)) = A ++ B := by
    rw [hlast.cut, List.filter_append, List.filter_cons]
    simp only [ne_eq, not_true_eq_false, decide_false, Bool.false_eq_true, if_false]
    have hstay : ∀ q ∈ A ++ B, decide (¬ q = p) = true := by
      intro q hq
      rw [decide_eq_true_eq]
      rintro rfl
      exact hlast.out hq
    rw [← List.filter_append, List.filter_eq_self.mpr hstay]
  have hsame : ∀ q ∈ (validOf s.dir.dentries s.log).filter (fun q => decide (q ≠ p)),
      SameDentry s.dir.dentries (s.markedAt p e tree).dir.dentries q :=
    fun q hq => SameDentry.of_eq (hother q (by simpa using (List.mem_filter.mp hq).2))
  have hlinked : .dirLog p ∈ linkedOf s.log := mem_linkedOf_dirLog.mpr (mem_validOf.mp hmem).1
  have hself' : (s.markedAt p e tree).image.stamp (.dirLog p) = s.dir.transId :=
    (congrArg (fun e : LogDentry => e.transId) hself).trans htrans
  have hbelow : ∀ r ∈ linkedOf s.log, r = .dirLog p ∨
      (s.markedAt p e tree).image.stamp r < (s.markedAt p e tree).image.stamp (.dirLog p) := by
    intro r hr
    by_cases heq : r = .dirLog p
    · exact Or.inl heq
    · right
      have hstamp : (s.markedAt p e tree).image.stamp r = s.image.stamp r := by
        cases r with
        | setAttr q => rfl
        | linkChange q => rfl
        | dirLog q => exact congrArg (fun e : LogDentry => e.transId) (hother q fun hq => heq (by rw [hq]))
      rw [hstamp, hself']
      exact h.stamped r hr
  refine ⟨hok, ?_, ?_, ?_, ?_, h.apart, ?_, ⟨.dirLog p, ?_, ?_⟩, ?_, ?_, ?_, ?_, ?_, h.logHead⟩
  · rw [hlog]
    exact h.nodup
  · intro q hq
    rw [hlog] at hq
    refine ⟨(h.named q hq).1, ?_⟩
    by_cases heq : q = p
    · rw [heq, hself, hname]
      exact (h.named p (heq ▸ hq)).2
    · rw [hother q heq]
      exact (h.named q hq).2
  · rw [hvalidOf, replay_dentries_congr hsame, hfilter, hlast.without, ← htable]
    rfl
  · intro x hx
    obtain ⟨h1, h2⟩ := hpair x hx
    rw [hvalidOf]
    exact ((h.pairs x hx).filter (fun q => decide (q ≠ p)) (by simpa using h1) (by simpa using h2)).congr hsame
  · intro r hr
    rw [hlog] at hr
    rcases hbelow r hr with rfl | hlt
    · rw [hself']
      exact Nat.lt_succ_self _
    · rw [hself'] at hlt
      exact Nat.lt_succ_of_lt hlt
  · rw [hlog]
    exact Newest.restamp hlinked hbelow (linkedOf_nodup h.nodup)
  · exact congrArg (fun e : LogDentry => e.linksCount) hself
  · rw [hlog]
    refine Newest.restamp (mem_dentriesOf.mpr (mem_validOf.mp hmem).1) (fun q hq => ?_) (dentriesOf_nodup h.nodup)
    rcases hbelow (.dirLog q) (mem_linkedOf_dirLog.mpr (mem_dentriesOf.mp hq)) with heq | hlt
    · exact Or.inl (DirRecord.dirLog.inj heq)
    · exact Or.inr hlt
  · rw [hlog]
    exact h.lastChange
  · rw [hlog]
    exact h.lastSetattr
  · rw [hlog]
    exact h.owner
  · obtain ⟨hmem', hfname, hino⟩ := h.father
    have hne : s.fatherEntry ≠ p := by
      intro heq
      rw [heq] at hfname
      exact hfather hfname
    rw [hlog, show (s.markedAt p e tree).fatherEntry = s.fatherEntry from rfl, hother _ hne]
    exact ⟨hmem', hfname, hino⟩

/-- The dentries with two of them invalid. -/
def invalidatedAt (f : Nat → LogDentry) (p w q : Nat) : LogDentry :=
  if q = p ∨ q = w then { f q with invalid := true } else f q

/-- The dentries `nova_invalidate_dentries` is called for. -/
def pairOf (u : NovaInodeUpdate) : List (Nat × Nat) :=
  match u.createDentry, u.deleteDentry with
  | some p, some w => [(p, w)]
  | _, _ => []

theorem novaInvalidateDentries_dir (sEpochId : Nat) (verifies : Bool) (f : ListedDir) (u : NovaInodeUpdate) :
    (novaInvalidateDentries sEpochId verifies f u).dir = f.dir ∨
      ∃ p w, pairOf u = [(p, w)] ∧ (novaInvalidateDentries sEpochId verifies f u).dir =
        { f.dir with dentries := invalidatedAt f.dir.dentries p w } := by
  unfold novaInvalidateDentries pairOf
  cases u.createDentry with
  | none => exact Or.inl rfl
  | some p =>
      cases u.deleteDentry with
      | none => exact Or.inl rfl
      | some w =>
          dsimp only
          by_cases hv : (!verifies) = true
          · rw [if_pos hv]
            exact Or.inl rfl
          · rw [if_neg hv]
            split
            · exact Or.inl rfl
            · refine Or.inr ⟨p, w, rfl, ?_⟩
              have hdentries : ((f.dir.setDentry p { f.dir.dentries p with invalid := true }).setDentry w
                  { (f.dir.setDentry p { f.dir.dentries p with invalid := true }).dentries w with invalid := true }).dentries =
                  invalidatedAt f.dir.dentries p w := by
                funext q
                unfold invalidatedAt
                by_cases hqw : q = w
                · subst hqw
                  by_cases hqp : q = p
                  · subst hqp
                    simp
                  · rw [NovaDir.setDentry_self, NovaDir.setDentry_of_ne hqp, if_pos (Or.inr rfl)]
                · rw [NovaDir.setDentry_of_ne hqw]
                  by_cases hqp : q = p
                  · subst hqp
                    simp
                  · rw [NovaDir.setDentry_of_ne hqp, if_neg (by simp [hqp, hqw])]
              rw [← hdentries]
              rfl

/-- The invariant does not look at the flags that only listings read. -/
theorem LiveInv.congr (h : LiveInv env s ps n) (hdir : t.dir = s.dir) (hlog : t.log = s.log)
    (himage : t.image = s.image) (hlast : t.lastLinkChange = s.lastLinkChange ∧ t.lastSetattr = s.lastSetattr)
    (howner : (t.mode, t.uid, t.gid) = (s.mode, s.uid, s.gid)) : LiveInv env t ps n := by
  have hhead : t.logHead = s.logHead := congrArg DirImage.logHead himage
  have hattrs : t.attrs = s.attrs := congrArg DirImage.attrs himage
  have hpi : t.pi = s.pi := congrArg DirImage.pi himage
  have hfather : t.fatherEntry = s.fatherEntry := by
    unfold LiveDir.fatherEntry
    rw [hhead]
  refine ⟨?_, ?_, ?_, ?_, ?_, h.apart, ?_, ?_, ?_, ?_, ?_, ?_, ?_, ?_⟩
  · rw [hdir]
    exact h.nodes
  · rw [hlog]
    exact h.nodup
  · rw [hdir, hlog]
    exact h.named
  · rw [hdir, hlog]
    exact h.replays
  · rw [hdir, hlog]
    exact h.pairs
  · rw [hdir, hlog, himage]
    exact h.stamped
  · rw [hlog, himage]
    exact h.newest
  · rw [hdir, hlog]
    exact h.last
  · rw [hlast.1, hlog]
    exact h.lastChange
  · rw [hlast.2, hlog]
    exact h.lastSetattr
  · rw [hlog, hattrs, hpi, howner]
    exact h.owner
  · rw [hfather, hdir, hlog]
    exact h.father
  · rw [hhead]
    exact h.logHead

/-- A pair is forgotten. -/
theorem LiveInv.forget (h : LiveInv env s (x :: ps) n) : LiveInv env s ps n :=
  { h with
    pairs := fun y hy => h.pairs y (List.mem_cons_of_mem _ hy)
    apart := (List.pairwise_cons.mp h.apart).2 }

/-- **A dentry and the one that removes it are invalidated**, and the names stay as they are. -/
theorem LiveInv.invalidatedPair (h : LiveInv env s ((p, w) :: ps) n) :
    LiveInv env { s with dir := { s.dir with dentries := invalidatedAt s.dir.dentries p w } } ps n := by
  have hpair := h.pairs (p, w) List.mem_cons_self
  obtain ⟨A, B, C, hcut, hne⟩ := hpair.cut
  dsimp only at hcut hne
  have hrest : ∀ q, (invalidatedAt s.dir.dentries p w q).name = (s.dir.dentries q).name ∧
      (invalidatedAt s.dir.dentries p w q).ino = (s.dir.dentries q).ino ∧
      (invalidatedAt s.dir.dentries p w q).transId = (s.dir.dentries q).transId ∧
      (invalidatedAt s.dir.dentries p w q).linksCount = (s.dir.dentries q).linksCount := by
    intro q
    unfold invalidatedAt
    split
    · exact ⟨rfl, rfl, rfl, rfl⟩
    · exact ⟨rfl, rfl, rfl, rfl⟩
  have hvalidOf : validOf (invalidatedAt s.dir.dentries p w) s.log =
      (validOf s.dir.dentries s.log).filter fun q => !decide (q = p ∨ q = w) := by
    unfold validOf
    rw [List.filter_filter]
    refine List.filter_congr fun q _ => ?_
    unfold invalidatedAt
    by_cases hq : q = p ∨ q = w
    · rw [if_pos hq]
      simp [hq]
    · rw [if_neg hq]
      simp [hq]
  have hsame : ∀ q ∈ (validOf s.dir.dentries s.log).filter (fun q => !decide (q = p ∨ q = w)),
      SameDentry s.dir.dentries (invalidatedAt s.dir.dentries p w) q :=
    fun q _ => ⟨(hrest q).1, by rw [(hrest q).2.1]⟩
  have hfilter : (validOf s.dir.dentries s.log).filter (fun q => !decide (q = p ∨ q = w)) = A ++ B ++ C := by
    have hnodup := validOf_nodup (f := s.dir.dentries) h.nodup
    rw [hcut] at hnodup ⊢
    have hw := (List.nodup_cons.mp (List.nodup_middle.mp hnodup)).1
    have hrw : A ++ p :: B ++ C = A ++ p :: (B ++ C) := by simp
    have hp := (List.nodup_cons.mp (List.nodup_middle.mp
      (hrw ▸ (List.nodup_cons.mp (List.nodup_middle.mp hnodup)).2))).1
    have hstay : ∀ q ∈ A ++ B ++ C, (!decide (q = p ∨ q = w)) = true := by
      intro q hq
      rw [Bool.not_eq_true', decide_eq_false_iff_not]
      rintro (rfl | rfl)
      · exact hp (by simpa [List.append_assoc] using hq)
      · refine hw ?_
        simp only [List.mem_append, List.mem_cons] at hq ⊢
        tauto
    have hpgo : (!decide (p = p ∨ p = w)) = false := by simp
    have hwgo : (!decide (w = p ∨ w = w)) = false := by simp
    rw [List.filter_append, List.filter_append, List.filter_cons, List.filter_cons, if_neg (by rw [hpgo]; simp),
      if_neg (by rw [hwgo]; simp), ← List.filter_append, ← List.filter_append, List.filter_eq_self.mpr hstay]
  have hstamp : ∀ r ∈ linkedOf s.log, (LiveDir.image { s with dir := { s.dir with
      dentries := invalidatedAt s.dir.dentries p w } }).stamp r = s.image.stamp r :=
    stamp_congr (fun q _ => (hrest q).2.2.1) fun _ _ => rfl
  have hreplay := h.replays
  rw [hcut] at hreplay
  have hapart := List.pairwise_cons.mp h.apart
  refine ⟨h.nodes, h.nodup, fun q hq => ⟨(h.named q hq).1, ?_⟩, ?_, ?_, hapart.2, ?_, ?_, ?_, h.lastChange, h.lastSetattr,
    h.owner, ?_, h.logHead⟩
  · rw [(hrest q).1]
    exact (h.named q hq).2
  · show replay (dentryKey (invalidatedAt s.dir.dentries p w)) (dentryPut (invalidatedAt s.dir.dentries p w))
      (validOf (invalidatedAt s.dir.dentries p w) s.log) _ = _
    rw [hvalidOf, replay_dentries_congr hsame, hfilter]
    exact replay_drop_pair hreplay (dentryPut_some.mpr ⟨hpair.put, rfl⟩) (dentryPut_none.mpr hpair.delete) hpair.key hne
  · intro x hx
    have hne1 := hapart.1 x hx
    have hpair' := h.pairs x (List.mem_cons_of_mem _ hx)
    have hcross : x.1 ≠ w ∧ x.2 ≠ p := by
      refine ⟨?_, ?_⟩
      · intro heq
        exact hpair'.put (heq ▸ hpair.delete)
      · intro heq
        exact hpair.put (heq ▸ hpair'.delete)
    show DentryPair (invalidatedAt s.dir.dentries p w) (validOf (invalidatedAt s.dir.dentries p w) s.log) x
    rw [hvalidOf]
    refine (hpair'.filter (fun q => !decide (q = p ∨ q = w)) ?_ ?_).congr hsame
    · simpa using ⟨Ne.symm hne1.1, hcross.1⟩
    · simpa using ⟨hcross.2, Ne.symm hne1.2⟩
  · intro r hr
    rw [hstamp r hr]
    exact h.stamped r hr
  · obtain ⟨r, hnew, hlinks⟩ := h.newest
    refine ⟨r, hnew.congr hstamp, ?_⟩
    rw [← hlinks]
    cases r with
    | setAttr q => rfl
    | linkChange q => rfl
    | dirLog q => exact (hrest q).2.2.2
  · exact h.last.congr fun q _ => (hrest q).2.2.1
  · obtain ⟨hmem, hname, hino⟩ := h.father
    exact ⟨hmem, (hrest _).1.trans hname, (hrest _).2.1.symm ▸ hino⟩

/-- `nova_invalidate_dentries` keeps the invariant, whether it invalidates or not. -/
theorem LiveInv.invalidate {u : NovaInodeUpdate} (h : LiveInv env s (pairOf u ++ ps) n) (verifies : Bool) :
    LiveInv env (s.invalidate verifies u) ps n := by
  rcases novaInvalidateDentries_dir s.sEpochId verifies s.listed u with hdir | ⟨p, w, hu, hdir⟩
  · have hforget : LiveInv env s ps n := by
      unfold pairOf at h
      cases hc : u.createDentry with
      | none =>
          rw [hc] at h
          exact h
      | some p =>
          cases hd : u.deleteDentry with
          | none =>
              rw [hc, hd] at h
              exact h
          | some w =>
              rw [hc, hd] at h
              exact h.forget
    have hdir' : (s.invalidate verifies u).dir = s.dir := hdir
    refine hforget.congr hdir' rfl ?_ ⟨rfl, rfl⟩ rfl
    unfold LiveDir.image
    rw [hdir']
    rfl
  · rw [hu] at h
    have hdir' : (s.invalidate verifies u).dir = { s.dir with dentries := invalidatedAt s.dir.dentries p w } := hdir
    refine h.invalidatedPair.congr hdir' rfl ?_ ⟨rfl, rfl⟩ rfl
    unfold LiveDir.image
    rw [hdir']
    rfl

end Live

end Parfs
