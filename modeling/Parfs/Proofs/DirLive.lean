/-
A directory that is in use and its rebuild.

Every call adds to what a rebuild sees: a dentry at the end of the log, a flag on an older one, a
link change, attributes.  One lemma a call says that the invariant of the replay is kept, and
which link count was written last.  That count is the one of the directory: two, and one for
each of its subdirectories.

A rename within one directory removes a name, adds one and removes another before anything is
invalidated, so there are two pairs of dentries that wait.
-/
import Mathlib.Algebra.Order.BigOperators.Group.List
import Parfs.Proofs.DirRebuild

namespace Parfs

open Lib

variable {env : BallocEnv}

section Live

variable {s t : LiveDir} {ps : List (Nat × Nat)} {x : Nat × Nat} {n : Nat} {f g : Nat → LogDentry} {l : List Nat}
  {log : List DirRecord} {p w : Nat} {d : NovaDir}

/-! ### The calls -/

/-- The link count a call writes. -/
def linksWritten (nlink : Nat) (linkChange : Int) : Nat := DentryUpdate.linksCount ⟨0, 0, 0, nlink, linkChange⟩

/-- The names of the directory. -/
def LiveDir.names (s : LiveDir) : Set (List UInt8) :=
  {name | ∃ p, dirTable s.dir.nodes (dirKey name) = some p ∧ (s.dir.dentries p).name = name}

/-- The log has room where it has no dentry yet. -/
def LiveDir.Fresh (s : LiveDir) (append : AppendDentry) : Prop :=
  ∀ w, append = .appended w → w ≠ 0 ∧ .dirLog w ∉ s.log

/-- A name is added for an inode, with a node that is not in use. -/
structure LiveDir.CanAdd (s : LiveDir) (a : NameCall) (ino : Nat) (slab : Option Nat) : Prop where
  fresh : s.Fresh a.append
  ino : ino ≠ 0
  slab : ∀ addr, slab = some addr → addr ∉ s.dir.nodes.map RangeNode.addr

/-- A name that is removed is a string, and not the parent. -/
structure LiveDir.CanRemove (s : LiveDir) (a : NameCall) : Prop where
  fresh : s.Fresh a.append
  nul : 0 ∉ a.name
  parent : a.name ≠ [46, 46]

theorem LiveInv.mem_log (h : LiveInv env s ps n) {k : Nat} (hp : dirTable s.dir.nodes k = some p) : .dirLog p ∈ s.log := by
  obtain ⟨A, B, hlast⟩ := h.lastOf hp
  refine (mem_validOf (f := s.dir.dentries)).mp ?_ |>.1
  rw [hlast.cut]
  simp

/-- One key of the tree changes. -/
theorem LiveInv.mem_names (h : LiveInv env s ps n) {k : Nat} {o : Option Nat}
    (htable : dirTable t.dir.nodes = Function.update (dirTable s.dir.nodes) k o)
    (hname : ∀ q, .dirLog q ∈ s.log → (t.dir.dentries q).name = (s.dir.dentries q).name) (name : List UInt8) :
    name ∈ t.names ↔ if dirKey name = k then ∃ p, o = some p ∧ (t.dir.dentries p).name = name else name ∈ s.names := by
  show (∃ p, _ ∧ _) ↔ _
  rw [htable]
  by_cases hk : dirKey name = k
  · rw [if_pos hk, hk, Function.update_self]
  · rw [if_neg hk, Function.update_of_ne hk]
    refine exists_congr fun p => and_congr_right fun hp => ?_
    rw [hname p (h.mem_log hp)]

/-- `nova_add_dentry` -/
theorem LiveInv.addDentry (h : LiveInv env s ps n) {a : NameCall} {incLink : Int} {ino : Nat} {slab : Option Nat}
    {update u : NovaInodeUpdate} (hcan : s.CanAdd a ino slab)
    (hrun : s.addDentry env a incLink ino slab update = some (t, u)) :
    LiveInv env t ps (linksWritten s.nlink incLink) ∧ a.name ∉ s.names ∧ t.names = insert a.name s.names ∧
      t.nlink = s.nlink ∧ t.subdirs = s.subdirs ∧ pairOf u = pairOf update := by
  unfold LiveDir.addDentry at hrun
  rcases hadd : novaAddDentry env s.dir (s.call a incLink) ino slab update with ⟨d, e | u'⟩
  · rw [hadd] at hrun
    simp at hrun
  · rw [hadd] at hrun
    obtain ⟨rfl, rfl⟩ := Prod.mk.inj (Option.some.inj hrun)
    obtain ⟨w, tree, hname, happend, rfl, rfl, hok, hfree, htable⟩ := novaAddDentry_ok h.nodes hcan.slab hadd
    obtain ⟨hw0, hw⟩ := hcan.fresh w happend
    let e := novaUpdateNewDentry s.dir (s.call a incLink) ino
    have hout : a.name ∉ s.names := by
      intro ⟨p, hp, _⟩
      rw [show dirKey a.name = dirKey (s.call a incLink).name from rfl, hfree] at hp
      simp at hp
    have hself : ((s.appended w e tree).dir.dentries w).name = a.name := congrArg (fun e : LogDentry => e.name) (if_pos rfl)
    refine ⟨h.appended (e := e) hw0 hw hname rfl rfl hok (Or.inl ⟨hcan.ino, hfree, htable⟩), hout, ?_, rfl, rfl, rfl⟩
    ext name
    refine (h.mem_names (t := s.appended w e tree) (k := dirKey a.name) htable
      (fun q hq => congrArg (fun e : LogDentry => e.name) (LiveDir.appended_dentries hw hq)) name).trans ?_
    rw [Set.mem_insert_iff]
    by_cases hk : dirKey name = dirKey a.name
    · rw [if_pos hk]
      have hnot : name ∉ s.names := by
        intro ⟨p, hp, _⟩
        rw [hk, show dirKey a.name = dirKey (s.call a incLink).name from rfl, hfree] at hp
        simp at hp
      constructor
      · rintro ⟨p, hp, hpname⟩
        obtain rfl := Option.some.inj hp
        exact Or.inl (hpname.symm.trans hself)
      · rintro (rfl | hmem)
        · exact ⟨w, rfl, hself⟩
        · exact absurd hmem hnot
    · rw [if_neg hk]
      refine ⟨Or.inr, fun hmem => hmem.resolve_left ?_⟩
      rintro rfl
      exact hk rfl

/-- A dentry that was removed by another one is left for the invalidation, with it. -/
theorem LiveInv.appendedPair (h : LiveInv env s ps n) {e : LogDentry} {tree : RbTree RangeNode} {m : Nat}
    (h' : LiveInv env (s.appended w e tree) ps m) (hw : .dirLog w ∉ s.log) (hvalid : e.invalid = false)
    (hino : e.ino = 0) (hp : dirTable s.dir.nodes (dirKey e.name) = some p) :
    LiveInv env (s.appended w e tree) (ps ++ [(p, w)]) m := by
  obtain ⟨A, B, hlast⟩ := h.lastOf hp
  have hmem : ∀ q ∈ validOf s.dir.dentries s.log, .dirLog q ∈ s.log := fun q hq => (mem_validOf.mp hq).1
  have hself : (s.appended w e tree).dir.dentries w = e := if_pos rfl
  have hsame : ∀ q ∈ validOf s.dir.dentries s.log, (s.appended w e tree).dir.dentries q = s.dir.dentries q :=
    fun q hq => LiveDir.appended_dentries hw (hmem q hq)
  have hpmem : p ∈ validOf s.dir.dentries s.log := by
    rw [hlast.cut]
    simp
  have hkey : ∀ q ∈ validOf s.dir.dentries s.log, dentryKey (s.appended w e tree).dir.dentries q =
      dentryKey s.dir.dentries q := by
    intro q hq
    unfold dentryKey
    rw [hsame q hq]
  have hnew : DentryPair (s.appended w e tree).dir.dentries
      (validOf (s.appended w e tree).dir.dentries (s.appended w e tree).log) (p, w) := by
    refine ⟨?_, ?_, ?_, A, B, [], ?_, fun q hq => ?_⟩
    · rw [hsame p hpmem]
      exact hlast.ino
    · rw [hself]
      exact hino
    · rw [hkey p hpmem, hlast.key]
      exact congrArg (fun e : LogDentry => dirKey e.name) hself
    · rw [LiveDir.appended_validOf hw hvalid, hlast.cut]
    · rw [hkey p hpmem, hlast.key, hkey q (by rw [hlast.cut]; simp [hq])]
      exact hlast.after q hq
  refine { h' with pairs := fun x hx => ?_, apart := ?_ }
  · rcases List.mem_append.mp hx with hx | hx
    · exact h'.pairs x hx
    · obtain rfl := List.mem_singleton.mp hx
      exact hnew
  · refine List.pairwise_append.mpr ⟨h'.apart, List.pairwise_singleton _ _, fun x hx y hy => ?_⟩
    obtain rfl := List.mem_singleton.mp hy
    refine ⟨(h.pair_ne hp hx).1, fun heq => hw ?_⟩
    have hxw : x.2 = w := heq
    rw [← hxw]
    exact hmem _ (h.pairs x hx).mem.2

/-- `nova_remove_dentry` -/
theorem LiveInv.removeDentry (h : LiveInv env s ps n) {a : NameCall} {decLink : Int} {rename verifies : Bool}
    {update u : NovaInodeUpdate} (hcan : s.CanRemove a)
    (hrun : s.removeDentry env a decLink rename verifies update = some (t, u)) :
    LiveInv env t (ps ++ pairOf u) (linksWritten s.nlink decLink) ∧ t.names = s.names \ {a.name} ∧
      t.nlink = s.nlink ∧ t.subdirs = s.subdirs := by
  unfold LiveDir.removeDentry at hrun
  rcases hremove : novaRemoveDentry env s.dir (s.call a decLink) rename verifies update with ⟨d, e | u'⟩
  · rw [hremove] at hrun
    simp at hrun
  · rw [hremove] at hrun
    obtain ⟨rfl, rfl⟩ := Prod.mk.inj (Option.some.inj hrun)
    obtain ⟨p, tree, hname, hp, -, -, hmatch, hok, htable, hcase⟩ := novaRemoveDentry_ok h.nodes hremove
    have hpname : (s.dir.dentries p).name = a.name := novaCheckDentryMatch_eq hcan.nul hmatch
    have hgone : ∀ t : LiveDir, dirTable t.dir.nodes = Function.update (dirTable s.dir.nodes) (dirKey a.name) none →
        (∀ q, .dirLog q ∈ s.log → (t.dir.dentries q).name = (s.dir.dentries q).name) → t.names = s.names \ {a.name} := by
      intro t ht hnames
      ext name
      refine (h.mem_names ht hnames name).trans ?_
      rw [Set.mem_diff, Set.mem_singleton_iff]
      by_cases hk : dirKey name = dirKey a.name
      · rw [if_pos hk]
        refine ⟨by simp, ?_⟩
        rintro ⟨⟨q, hq, hqname⟩, hne⟩
        rw [hk, show dirKey a.name = dirKey (s.call a decLink).name from rfl, hp, Option.some.injEq] at hq
        exact absurd (hqname.symm.trans (hq ▸ hpname)) hne
      · rw [if_neg hk]
        refine ⟨fun hmem => ⟨hmem, ?_⟩, And.left⟩
        rintro rfl
        exact hk rfl
    rcases hcase with ⟨hcreate, hdelete, rfl⟩ | ⟨w, happend, hcreate, hdelete, rfl⟩
    · have hpair : pairOf u' = [] := by
        unfold pairOf
        rw [hcreate]
      rw [hpair, hdelete, List.append_nil]
      let e := novaInplaceUpdateDentry s.dir (s.call a decLink) (s.dir.dentries p)
      refine ⟨h.markedAt (e := e) hp rfl rfl rfl (hpname.symm ▸ hcan.parent) hok htable, ?_, rfl, rfl⟩
      refine hgone (s.markedAt p e tree) htable fun q _ => ?_
      by_cases hq : q = p
      · subst hq
        have hself : (s.markedAt q e tree).dir.dentries q = e := if_pos rfl
        rw [hself]
        rfl
      · exact congrArg (fun e : LogDentry => e.name) (NovaDir.setDentry_of_ne hq e)
    · have hpair : pairOf u' = [(p, w)] := by
        unfold pairOf
        rw [hcreate, hdelete]
      rw [hpair, hdelete]
      obtain ⟨hw0, hw⟩ := hcan.fresh w happend
      let e := novaUpdateNewDentry s.dir (s.call a decLink) 0
      have hinv := h.appended (e := e) hw0 hw hname rfl rfl hok (Or.inr ⟨rfl, htable⟩)
      refine ⟨h.appendedPair hinv hw rfl rfl hp, ?_, rfl, rfl⟩
      exact hgone (s.appended w e tree) htable
        fun q hq => congrArg (fun e : LogDentry => e.name) (LiveDir.appended_dentries hw hq)

/-! ### The inode and the log -/

theorem LiveInv.tailTo (h : LiveInv env s ps n) (tail : Nat) : LiveInv env (s.tailTo tail) ps n :=
  ⟨h.nodes, h.nodup, h.named, h.replays, h.pairs, h.apart, h.stamped, h.newest, h.last, h.lastChange, h.lastSetattr,
    h.owner, h.father, h.logHead⟩

/-- The invariant does not look at what a call counts. -/
theorem LiveInv.counted (h : LiveInv env s ps n) (nlink sEpochId : Nat) (subdirs : Finset (List UInt8)) :
    LiveInv env { s with nlink := nlink, sEpochId := sEpochId, subdirs := subdirs } ps n :=
  ⟨h.nodes, h.nodup, h.named, h.replays, h.pairs, h.apart, h.stamped, h.newest, h.last, h.lastChange, h.lastSetattr,
    h.owner, h.father, h.logHead⟩

/-- A transaction that wrote nothing with a link count. -/
theorem LiveInv.nextTrans (h : LiveInv env s ps n) :
    LiveInv env { s with dir := { s.dir with transId := s.dir.transId + 1 } } ps n :=
  ⟨h.nodes, h.nodup, h.named, h.replays, h.pairs, h.apart, fun r hr => Nat.lt_succ_of_lt (h.stamped r hr), h.newest,
    h.last, h.lastChange, h.lastSetattr, h.owner, h.father, h.logHead⟩

theorem LiveInv.invalidateTarget {u : NovaInodeUpdate} {r : LiveDir.RenameTo} (h : LiveInv env s (pairOf u ++ ps) n)
    (hnone : r.target = none → pairOf u = []) : LiveInv env (s.invalidateTarget r u) ps n := by
  unfold LiveDir.invalidateTarget
  cases htarget : r.target with
  | none =>
      rw [hnone htarget] at h
      exact h
  | some x => exact h.invalidate x.2.2

theorem getLastD_map_of_getLast? {A B : Type} {l : List A} {a : A} (h : l.getLast? = some a) (g : A → B) (b : B) :
    (l.map g).getLastD b = g a := by
  rw [List.getLastD_eq_getLast?, List.getLast?_map, h]
  rfl

/-- The last record of a kind, if there is one. -/
theorem getLast?_of_getLastD {l : List Nat} (h : p = l.getLastD 0) (hp : p ≠ 0) : l.getLast? = some p := by
  rw [List.getLastD_eq_getLast?] at h
  cases hl : l.getLast? with
  | none =>
      rw [hl] at h
      exact absurd h hp
  | some q =>
      rw [hl] at h
      rw [h]
      rfl

theorem log_nodup_append {r : DirRecord} (h : log.Nodup) (hr : r ∉ log) : (log ++ [r]).Nodup := by
  refine List.nodup_append.mpr ⟨h, List.nodup_singleton _, fun r' hr' x hx heq => hr ?_⟩
  rwa [heq, List.mem_singleton.mp hx] at hr'

/-- **What a setattr brings is in the last entry of its kind**, be it written again or new. -/
theorem LiveInv.novaNotifyChange (h : LiveInv env s ps n) {e : NovaSetattrLogentry} {append : AppendLink}
    (hfresh : ∀ p, append = .appended p → .setAttr p ∉ s.log) (hrun : s.novaNotifyChange e append = some t) :
    LiveInv env t ps n ∧ t.names = s.names ∧ t.nlink = s.nlink ∧ t.subdirs = s.subdirs := by
  unfold LiveDir.novaNotifyChange at hrun
  obtain ⟨t', ht', rfl⟩ := Option.map_eq_some_iff.mp hrun
  by_cases hplace : e.attr &&& attrSize = 0 ∧
      LiveDir.canInplaceUpdateSetattr { s with mode := e.mode, uid := e.uid, gid := e.gid }
  · rw [if_pos hplace] at ht'
    obtain rfl := Option.some.inj ht'
    have hlast : s.lastSetattr ≠ 0 := by
      have hcan := hplace.2
      unfold LiveDir.canInplaceUpdateSetattr at hcan
      simp only [Bool.and_eq_true, decide_eq_true_eq] at hcan
      exact hcan.1.1
    refine ⟨LiveInv.nextTrans ⟨h.nodes, h.nodup, h.named, h.replays, h.pairs, h.apart, h.stamped, h.newest, h.last,
      h.lastChange, h.lastSetattr, ?_, h.father, h.logHead⟩, rfl, rfl, rfl⟩
    refine (getLastD_map_of_getLast? (getLast?_of_getLastD h.lastSetattr hlast) _ _).trans ?_
    unfold LiveDir.setAttrEntry
    dsimp only
    rw [Function.update_self]
    rfl
  · rw [if_neg hplace] at ht'
    cases append with
    | refused er w => simp at ht'
    | appended p =>
        obtain rfl := Option.some.inj ht'
        have hnew := hfresh p rfl
        have hdentries : dentriesOf (s.log ++ [.setAttr p]) = dentriesOf s.log := by simp
        have hvalid : validOf s.dir.dentries (s.log ++ [.setAttr p]) = validOf s.dir.dentries s.log := by
          simp [validOf_append]
        have hlinked : linkedOf (s.log ++ [.setAttr p]) = linkedOf s.log := by simp
        have hchanges : changesOf (s.log ++ [.setAttr p]) = changesOf s.log := by simp
        have hattrs : (attrsOf (s.log ++ [.setAttr p])).getLast? = some p := by simp
        refine ⟨LiveInv.nextTrans ⟨h.nodes, log_nodup_append h.nodup hnew, hdentries ▸ h.named, hvalid ▸ h.replays,
          hvalid ▸ h.pairs, h.apart, hlinked ▸ h.stamped, hlinked ▸ h.newest, hdentries ▸ h.last, hchanges ▸ h.lastChange,
          ?_, ?_, ⟨List.mem_append_left _ h.father.1, h.father.2⟩, h.logHead⟩, rfl, rfl, rfl⟩
        · rw [List.getLastD_eq_getLast?, hattrs]
          rfl
        · refine (getLastD_map_of_getLast? hattrs _ _).trans ?_
          unfold LiveDir.setAttrEntry LiveDir.tailTo
          dsimp only
          rw [Function.update_self]
          rfl

theorem mem_linkedOf_linkChange : .linkChange p ∈ linkedOf log ↔ .linkChange p ∈ log := by
  unfold linkedOf
  rw [List.mem_filter]
  simp [DirRecord.attr]

/-- The directory once a link change was written at `p`. -/
def LiveDir.changedAt (s : LiveDir) (p : Nat) (c : NovaLinkChangeEntry) (log : List DirRecord) (tail : Nat) : LiveDir :=
  { s with
    changes := Function.update s.changes p c
    log := log
    lastLinkChange := p
    dir := { s.dir with logTail := tail, transId := s.dir.transId + 1 } }

/-- **A link change is the newest entry** once it is written, be it the last one or another. -/
theorem LiveInv.changedAt (h : LiveInv env s ps n) {c : NovaLinkChangeEntry} {log : List DirRecord} {tail : Nat}
    (htrans : c.transId = s.dir.transId)
    (hlog : log = s.log ∧ s.lastLinkChange = p ∧ p ≠ 0 ∨ log = s.log ++ [.linkChange p] ∧ .linkChange p ∉ s.log) :
    LiveInv env (s.changedAt p c log tail) ps c.links := by
  have hself : (s.changedAt p c log tail).image.stamp (.linkChange p) = s.dir.transId := by
    refine Eq.trans ?_ htrans
    show (Function.update s.changes p c p).transId = c.transId
    rw [Function.update_self]
  have hlinks : (s.changedAt p c log tail).image.links (.linkChange p) = c.links := by
    show (Function.update s.changes p c p).links = c.links
    rw [Function.update_self]
  have hother : ∀ r ∈ linkedOf s.log, r = .linkChange p ∨ (s.changedAt p c log tail).image.stamp r < s.dir.transId := by
    intro r hr
    by_cases heq : r = .linkChange p
    · exact Or.inl heq
    · right
      have hstamp : (s.changedAt p c log tail).image.stamp r = s.image.stamp r := by
        cases r with
        | setAttr q => rfl
        | dirLog q => rfl
        | linkChange q =>
            have hq : q ≠ p := fun hq => heq (by rw [hq])
            show (Function.update s.changes p c q).transId = (s.changes q).transId
            rw [Function.update_of_ne hq]
      rw [hstamp]
      exact h.stamped r hr
  rcases hlog with ⟨rfl, rfl, hp⟩ | ⟨rfl, hnew⟩
  · have hlast := getLast?_of_getLastD h.lastChange hp
    have hmem : .linkChange s.lastLinkChange ∈ linkedOf s.log :=
      mem_linkedOf_linkChange.mpr (mem_changesOf.mp (List.mem_of_getLast? hlast))
    have hnewest : Newest (s.changedAt s.lastLinkChange c s.log tail).image.stamp (linkedOf s.log)
        (.linkChange s.lastLinkChange) :=
      Newest.restamp hmem (by rwa [hself]) (linkedOf_nodup h.nodup)
    exact ⟨h.nodes, h.nodup, h.named, h.replays, h.pairs, h.apart,
      fun r hr => Nat.lt_succ_of_le (hself ▸ hnewest.le r hr), ⟨_, hnewest, hlinks⟩, h.last, h.lastChange, h.lastSetattr,
      h.owner, h.father, h.logHead⟩
  · have hdentries : dentriesOf (s.log ++ [.linkChange p]) = dentriesOf s.log := by simp
    have hvalid : validOf s.dir.dentries (s.log ++ [.linkChange p]) = validOf s.dir.dentries s.log := by
      simp [validOf_append]
    have hlinked : linkedOf (s.log ++ [.linkChange p]) = linkedOf s.log ++ [.linkChange p] := by simp
    have hattrs : attrsOf (s.log ++ [.linkChange p]) = attrsOf s.log := by simp
    have hnewest : Newest (s.changedAt p c (s.log ++ [.linkChange p]) tail).image.stamp
        (linkedOf (s.log ++ [.linkChange p])) (.linkChange p) := by
      rw [hlinked]
      refine Newest.append fun r hr => ?_
      rcases hother r hr with rfl | hlt
      · exact Nat.le_refl _
      · exact hself ▸ Nat.le_of_lt hlt
    refine ⟨h.nodes, log_nodup_append h.nodup hnew, hdentries ▸ h.named, hvalid ▸ h.replays, hvalid ▸ h.pairs, h.apart,
      fun r hr => Nat.lt_succ_of_le (hself ▸ hnewest.le r hr), ⟨_, hnewest, hlinks⟩, hdentries ▸ h.last, ?_,
      hattrs ▸ h.lastSetattr, hattrs ▸ h.owner, ⟨List.mem_append_left _ h.father.1, h.father.2⟩, h.logHead⟩
    show p = (changesOf (s.log ++ [.linkChange p])).getLastD 0
    simp [List.getLastD_eq_getLast?]

/-- `nova_append_link_change_entry` -/
theorem LiveInv.appendLinkChange (h : LiveInv env s ps n) {e : NovaLinkChangeEntry} {append : AppendLink}
    (hfresh : ∀ p, append = .appended p → .linkChange p ∉ s.log) (hrun : s.appendLinkChange e append = some t) :
    LiveInv env t ps (s.nlink % 2 ^ 16) ∧ t.names = s.names ∧ t.nlink = s.nlink ∧ t.subdirs = s.subdirs := by
  unfold LiveDir.appendLinkChange at hrun
  obtain ⟨t', ht', rfl⟩ := Option.map_eq_some_iff.mp hrun
  by_cases hplace : s.lastLinkChange ≠ 0 ∧ (s.changes s.lastLinkChange).epochId = s.sEpochId
  · rw [if_pos hplace] at ht'
    obtain rfl := Option.some.inj ht'
    have hinv : LiveInv env (s.changedAt s.lastLinkChange (s.linkChangeEntry e) s.log s.dir.logTail) ps (s.nlink % 2 ^ 16) :=
      h.changedAt rfl (Or.inl ⟨rfl, rfl, hplace.1⟩)
    exact ⟨hinv, rfl, rfl, rfl⟩
  · rw [if_neg hplace] at ht'
    cases append with
    | refused er w => simp at ht'
    | appended p =>
        obtain rfl := Option.some.inj ht'
        exact ⟨h.changedAt (c := s.linkChangeEntry e) rfl (Or.inr ⟨rfl, hfresh p rfl⟩), rfl, rfl, rfl⟩

/-- `nova_rename` gives the entry `..` another inode. -/
theorem LiveInv.newParent (h : LiveInv env s ps n) {ino : Nat} (hino : ino ≠ 0) :
    LiveInv env { s with dir := s.dir.setDentry s.fatherEntry { s.dir.dentries s.fatherEntry with ino := ino } } ps n ∧
      LiveDir.names { s with dir := s.dir.setDentry s.fatherEntry { s.dir.dentries s.fatherEntry with ino := ino } } =
        s.names := by
  let e : LogDentry := { s.dir.dentries s.fatherEntry with ino := ino }
  have hrest : ∀ q, ((s.dir.setDentry s.fatherEntry e).dentries q).invalid = (s.dir.dentries q).invalid ∧
      ((s.dir.setDentry s.fatherEntry e).dentries q).transId = (s.dir.dentries q).transId ∧
      ((s.dir.setDentry s.fatherEntry e).dentries q).linksCount = (s.dir.dentries q).linksCount ∧
      SameDentry s.dir.dentries (s.dir.setDentry s.fatherEntry e).dentries q := by
    intro q
    by_cases hq : q = s.fatherEntry
    · subst hq
      unfold SameDentry
      rw [NovaDir.setDentry_self]
      exact ⟨rfl, rfl, rfl, rfl, iff_of_false hino h.father.2.2⟩
    · rw [NovaDir.setDentry_of_ne hq]
      exact ⟨rfl, rfl, rfl, SameDentry.of_eq (NovaDir.setDentry_of_ne hq e)⟩
  have hvalid : validOf (s.dir.setDentry s.fatherEntry e).dentries s.log = validOf s.dir.dentries s.log :=
    validOf_congr fun q _ => (hrest q).1
  have hsame : ∀ q ∈ validOf s.dir.dentries s.log, SameDentry s.dir.dentries (s.dir.setDentry s.fatherEntry e).dentries q :=
    fun q _ => (hrest q).2.2.2
  have hstamp : ∀ r ∈ linkedOf s.log, (LiveDir.image { s with dir := s.dir.setDentry s.fatherEntry e }).stamp r =
      s.image.stamp r := stamp_congr (fun q _ => (hrest q).2.1) fun _ _ => rfl
  refine ⟨⟨h.nodes, h.nodup, fun q hq => ⟨(h.named q hq).1, ?_⟩, ?_, ?_, h.apart, fun r hr => ?_, ?_, ?_, h.lastChange,
    h.lastSetattr, h.owner, ⟨h.father.1, ?_⟩, h.logHead⟩, ?_⟩
  · exact (hrest q).2.2.2.1.symm ▸ (h.named q hq).2
  · show replay (dentryKey (s.dir.setDentry s.fatherEntry e).dentries) (dentryPut (s.dir.setDentry s.fatherEntry e).dentries)
      (validOf (s.dir.setDentry s.fatherEntry e).dentries s.log) _ = _
    rw [hvalid, replay_dentries_congr hsame]
    exact h.replays
  · intro x hx
    show DentryPair (s.dir.setDentry s.fatherEntry e).dentries (validOf (s.dir.setDentry s.fatherEntry e).dentries s.log) x
    rw [hvalid]
    exact (h.pairs x hx).congr hsame
  · rw [hstamp r hr]
    exact h.stamped r hr
  · obtain ⟨r, hnew, hlinks⟩ := h.newest
    refine ⟨r, hnew.congr hstamp, ?_⟩
    rw [← hlinks]
    cases r with
    | setAttr q => rfl
    | linkChange q => rfl
    | dirLog q => exact (hrest q).2.2.1
  · exact h.last.congr fun q _ => (hrest q).2.1
  · exact ⟨(hrest _).2.2.2.1.trans h.father.2.1, fun h0 => h.father.2.2 ((hrest _).2.2.2.2.mp h0)⟩
  · ext name
    refine exists_congr fun p => and_congr_right fun _ => ?_
    rw [show (LiveDir.dir { s with dir := s.dir.setDentry s.fatherEntry e }).dentries =
      (s.dir.setDentry s.fatherEntry e).dentries from rfl, (hrest p).2.2.2.1]

/-! ### The rebuild -/

/-- What a rebuild needs of the memory; `r` is the newest entry with a link count. -/
structure DirImage.Sound (img : DirImage) (table : Nat → Option Nat) (last : Nat) (r : DirRecord) : Prop where
  logHead : img.logHead ≠ 0
  named : ∀ p ∈ dentriesOf img.log, p ≠ 0 ∧ (img.dentries p).name ≠ []
  replays : replay (dentryKey img.dentries) (dentryPut img.dentries) (validOf img.dentries img.log) (fun _ => none) =
    some table
  newest : Newest img.stamp (linkedOf img.log) r
  last : Newest (fun p => (img.dentries p).transId) (dentriesOf img.log) last

/-- What it makes of it. -/
structure DirImage.Rebuilt (env : BallocEnv) (img : DirImage) (table : Nat → Option Nat) (last : Nat) (r : DirRecord)
    (d : DirRebuild) : Prop where
  nodes : DirNodesOk env d.dir.nodes
  table : dirTable d.dir.nodes = table
  dentries : d.dir.dentries = img.dentries
  transId : d.dir.transId = img.stamp r + 1
  links : d.reb.iLinksCount = img.links r
  lastDentry : d.dir.lastDentry = last
  lastSetattr : d.lastSetattr = (attrsOf img.log).getLastD 0
  lastLinkChange : d.lastLinkChange = (changesOf img.log).getLastD 0
  owner : d.reb.owner = ((attrsOf img.log).map fun p => (img.attrs p).owner).getLastD img.pi.owner

section Rebuild

variable {img : DirImage} {table : Nat → Option Nat} {last : Nat} {r : DirRecord} {verifies : DirRecord → Bool}
  {slab : Nat → List Nat → Option Nat}

variable (env) in
theorem DirImage.Sound.rebuilt (h : img.Sound table last r) (hmedia : ∀ r, verifies r = true) (hslab : SlabGrants slab) :
    ∃ d, novaRebuildDirInodeTree env img verifies slab = (d, .ok ()) ∧ img.Rebuilt env table last r d := by
  have hstart : DirNodesOk env (rebuildDirStart img).dir.nodes := ⟨List.Pairwise.nil, by simp [NovaDir.nodes, rebuildDirStart], List.nodup_nil⟩
  have hempty : dirTable (rebuildDirStart img).dir.nodes = fun _ => none := rfl
  have hlast : LastDentry img.dentries (rebuildDirStart img).dir.lastDentry (0, 0) := ⟨rfl, fun _ => rfl, fun h => absurd rfl h⟩
  obtain ⟨s, hloop, hdone⟩ := rebuildDirLoop_spec img.log hmedia hslab hstart rfl h.named hlast
    (hempty ▸ h.replays)
  have hlinks : (s.reb.transId, s.reb.iLinksCount) = (img.stamp r, img.links r) :=
    hdone.links.trans (h.newest.taken _ (Nat.zero_le _))
  have hdentry : (dentriesOf img.log).foldl (takeNewest (fun q => (img.dentries q).transId) id) (0, 0) =
      ((img.dentries last).transId, last) := h.last.taken _ (Nat.zero_le _)
  refine ⟨{ s with dir := { s.dir with transId := s.reb.transId + 1 } }, ?_, hdone.nodes, hdone.table, hdone.dentries, ?_,
    (Prod.mk.inj hlinks).2, ?_, hdone.lastSetattr, hdone.lastLinkChange, hdone.owner⟩
  · unfold novaRebuildDirInodeTree
    dsimp only
    rw [if_neg h.logHead, hloop]
  · exact congrArg Nat.succ (Prod.mk.inj hlinks).1
  · exact hdone.last.1.trans (congrArg Prod.snd hdentry)

/-- A directory that was rebuilt keeps the invariant. -/
theorem DirImage.Rebuilt.live {d : DirRebuild} (h : img.Rebuilt env table last r d) (hs : img.Sound table last r)
    (hnodup : img.log.Nodup) (hdir : t.dir = d.dir) (hlog : t.log = img.log)
    (hmemory : t.changes = img.changes ∧ t.attrs = img.attrs ∧ t.logHead = img.logHead)
    (hlast : t.lastLinkChange = d.lastLinkChange ∧ t.lastSetattr = d.lastSetattr)
    (howner : ((attrsOf img.log).map fun p => (img.attrs p).owner).getLastD t.pi.owner = (t.mode, t.uid, t.gid))
    (hfather : .dirLog t.fatherEntry ∈ img.log ∧ (img.dentries t.fatherEntry).name = [46, 46] ∧
      (img.dentries t.fatherEntry).ino ≠ 0) : LiveInv env t [] (img.links r) := by
  obtain ⟨hchanges, hattrs, hhead⟩ := hmemory
  have hdentries : t.dir.dentries = img.dentries := hdir ▸ h.dentries
  have hstamp : ∀ x, t.image.stamp x = img.stamp x := by
    intro x
    cases x with
    | setAttr p => rfl
    | linkChange p => exact congrArg (fun f => (f p).transId) hchanges
    | dirLog p => exact congrArg (fun f : Nat → LogDentry => (f p).transId) hdentries
  refine ⟨hdir ▸ h.nodes, hlog ▸ hnodup, ?_, ?_, by simp, List.Pairwise.nil, fun x hx => ?_, ⟨r, ?_, ?_⟩, ?_, ?_, ?_, ?_,
    ?_, ?_⟩
  · rw [hlog, hdentries]
    exact hs.named
  · rw [hlog, hdentries, hs.replays, hdir, h.table]
  · rw [hlog] at hx
    rw [hstamp, hdir, h.transId]
    exact Nat.lt_succ_of_le (hs.newest.le x hx)
  · rw [hlog]
    exact hs.newest.congr fun x _ => hstamp x
  · cases r with
    | setAttr p => rfl
    | linkChange p => exact congrArg (fun f => (f p).links) hchanges
    | dirLog p => exact congrArg (fun f : Nat → LogDentry => (f p).linksCount) hdentries
  · rw [hlog, hdentries, hdir, h.lastDentry]
    exact hs.last
  · rw [hlast.1, hlog, h.lastLinkChange]
  · rw [hlast.2, hlog, h.lastSetattr]
  · rw [hlog, hattrs]
    exact howner
  · rw [hlog, hdentries]
    exact hfather
  · rw [hhead]
    exact hs.logHead

theorem LiveInv.sound (h : LiveInv env s ps n) :
    ∃ r, s.image.Sound (dirTable s.dir.nodes) s.dir.lastDentry r ∧ s.image.links r = n := by
  obtain ⟨r, hnew, hlinks⟩ := h.newest
  exact ⟨r, ⟨h.logHead, h.named, h.replays, hnew, h.last⟩, hlinks⟩

/-- The next mount. -/
theorem LiveInv.remount (h : LiveInv env s [] s.nlink) (hmedia : ∀ r, verifies r = true) (hslab : SlabGrants slab)
    (hrun : s.remount env verifies slab = some t) :
    LiveInv env t [] s.nlink ∧ t.names = s.names ∧ t.nlink = s.nlink ∧ t.subdirs = s.subdirs := by
  obtain ⟨r, hsound, hlinks⟩ := h.sound
  obtain ⟨d, hd, hrebuilt⟩ := hsound.rebuilt env hmedia hslab
  unfold LiveDir.remount at hrun
  rw [hd] at hrun
  obtain rfl := Option.some.inj hrun
  have howner : ((attrsOf s.log).map fun p => (s.attrs p).owner).getLastD d.reb.owner = d.reb.owner := by
    rw [hrebuilt.owner]
    show ((attrsOf s.log).map fun p => (s.attrs p).owner).getLastD (((attrsOf s.log).map fun p => (s.attrs p).owner).getLastD
      s.pi.owner) = ((attrsOf s.log).map fun p => (s.attrs p).owner).getLastD s.pi.owner
    rw [List.getLastD_eq_getLast?, List.getLastD_eq_getLast?]
    cases ((attrsOf s.log).map fun p => (s.attrs p).owner).getLast? with
    | none => rfl
    | some o => rfl
  refine ⟨?_, ?_, hrebuilt.links.trans hlinks, rfl⟩
  · rw [← hlinks]
    exact hrebuilt.live hsound h.nodup rfl rfl ⟨rfl, rfl, rfl⟩ ⟨rfl, rfl⟩ howner h.father
  · ext name
    show (∃ p, dirTable d.dir.nodes (dirKey name) = some p ∧ (d.dir.dentries p).name = name) ↔ _
    rw [hrebuilt.table, hrebuilt.dentries]
    exact Iff.rfl

/-- A new directory has `.` and `..`. -/
theorem novaAppendDirInitEntries_sound {pi : NovaInodeRebuild} {newBlock selfIno parentIno epochId mtime : Nat}
    (hblock : newBlock ≠ 0) (hself : selfIno ≠ 0) (hparent : parentIno ≠ 0) {img : DirImage}
    (himg : img = novaAppendDirInitEntries pi newBlock selfIno parentIno epochId mtime) {second : Nat}
    (hsecond : second = newBlock + novaDirLogRecLen 1) :
    img.Sound (Function.update (Function.update (fun _ => none) (dirKey [46]) (some newBlock)) (dirKey [46, 46])
      (some second)) second (.dirLog second) ∧ img.log.Nodup ∧ (img.dentries second).name = [46, 46] ∧
      (img.dentries second).ino ≠ 0 ∧ (img.dentries second).linksCount = 2 := by
  have hne : newBlock ≠ second := by
    rw [hsecond]
    exact Nat.ne_of_lt (Nat.lt_add_of_pos_right (by decide))
  have hlog : img.log = [.dirLog newBlock, .dirLog second] := by rw [himg, hsecond]; rfl
  have hfirst : img.dentries newBlock = (novaInitDentry selfIno parentIno epochId mtime).1 := by
    rw [himg]
    unfold novaAppendDirInitEntries
    dsimp only
    rw [Function.update_of_ne (hsecond ▸ hne)]
  have hfather : img.dentries second = (novaInitDentry selfIno parentIno epochId mtime).2 := by
    rw [himg, hsecond]
    unfold novaAppendDirInitEntries
    dsimp only
    rw [Function.update_self]
  have hhead : img.logHead = newBlock := by rw [himg]; rfl
  have hkeys : dirKey [46, 46] ≠ dirKey [46] := by decide
  have hvalid : validOf img.dentries img.log = [newBlock, second] := by
    rw [hlog, validOf_dirLog, validOf_dirLog, hfirst, hfather]
    rfl
  refine ⟨⟨hhead ▸ hblock, ?_, ?_, ?_, ?_⟩, ?_, ?_, ?_, ?_⟩
  · rw [hlog]
    intro p hp
    obtain rfl | rfl : p = newBlock ∨ p = second := by simpa using hp
    · rw [hfirst]
      exact ⟨hblock, by simp [novaInitDentry]⟩
    · rw [hfather]
      exact ⟨by omega, by simp [novaInitDentry]⟩
  · have hput : dentryPut img.dentries newBlock = some newBlock := dentryPut_some.mpr ⟨hfirst.symm ▸ hself, rfl⟩
    have hput' : dentryPut img.dentries second = some second := dentryPut_some.mpr ⟨hfather.symm ▸ hparent, rfl⟩
    have hkey : dentryKey img.dentries newBlock = dirKey [46] := congrArg (fun e : LogDentry => dirKey e.name) hfirst
    have hkey' : dentryKey img.dentries second = dirKey [46, 46] := congrArg (fun e : LogDentry => dirKey e.name) hfather
    rw [hvalid, replay_cons, (replayRecord_put hput).mpr ⟨rfl, rfl⟩, Option.bind_some, replay_cons,
      (replayRecord_put hput').mpr ⟨by rw [hkey', hkey, Function.update_of_ne hkeys], rfl⟩, hkey, hkey']
    rfl
  · rw [hlog]
    refine ⟨[.dirLog newBlock], [], rfl, ?_, by simp⟩
    intro x hx
    obtain rfl := List.mem_singleton.mp hx
    show (img.dentries newBlock).transId ≤ (img.dentries second).transId
    rw [hfirst, hfather]
    exact Nat.le_refl _
  · rw [hlog]
    refine ⟨[newBlock], [], rfl, ?_, by simp⟩
    intro x hx
    obtain rfl := List.mem_singleton.mp hx
    dsimp only
    rw [hfirst, hfather]
    exact Nat.le_refl _
  · rw [hlog]
    simpa using hne
  · rw [hfather]
    rfl
  · rw [hfather]
    exact hparent
  · rw [hfather]
    rfl

end Rebuild

/-! ### Every step -/

/-- A directory in use between two calls: what a rebuild needs, and the links it counts. -/
structure LiveSound (env : BallocEnv) (s : LiveDir) : Prop where
  inv : LiveInv env s [] s.nlink
  nlink : s.nlink = 2 + s.subdirs.card
  max : s.nlink ≤ novaLinkMax
  there : ∀ name ∈ s.subdirs, name ∈ s.names

/-- A rename to the directory. -/
structure LiveDir.CanRenameTo (env : BallocEnv) (s : LiveDir) (isDir : Bool) (r : LiveDir.RenameTo) : Prop where
  target : ∀ append verifies, r.target = some (append, verifies) → s.CanRemove { r.new with append := append }
  add : ∀ x, s.removeTarget env r = some x → x.1.CanAdd r.new r.ino r.slab
  kind : r.target ≠ none → (r.new.name ∈ s.subdirs ↔ isDir = true)

/-- A rename from the directory. -/
structure LiveDir.CanRenameFrom (s : LiveDir) (isDir : Bool) (r : LiveDir.RenameFrom) : Prop where
  remove : s.CanRemove r.old
  kind : r.old.name ∈ s.subdirs ↔ isDir = true

/-- What the callers see to, and where the log has room. -/
def DirAct.Enabled (env : BallocEnv) (s : LiveDir) : DirAct → Prop
  | create a ino slab => s.CanAdd a ino slab
  | mkdir a ino slab => s.CanAdd a ino slab
  | unlink a _ => s.CanRemove a ∧ a.name ∉ s.subdirs
  | rmdir a _ => s.CanRemove a ∧ a.name ∈ s.subdirs
  | renameInto isDir r => s.CanRenameTo env isDir r
  | renameOut isDir r => s.CanRenameFrom isDir r
  | renameWithin isDir new old => s.CanRenameTo env isDir new ∧ s.CanRenameFrom isDir old ∧ old.old.name ≠ new.new.name ∧
      ∀ x, s.addTo env new (LiveDir.incLinkWithin isDir new) = some x → x.1.Fresh old.old.append
  | setattr e append => isReg e.mode = false ∧ ∀ p, append = .appended p → .setAttr p ∉ s.log
  | ioctl _ append => ∀ p, append = .appended p → .linkChange p ∉ s.log
  | renameSelf _ append newDir => (∀ p, append = .appended p → .linkChange p ∉ s.log) ∧ newDir ≠ some 0
  | snapshot => True
  | remount verifies slab => (∀ r, verifies r = true) ∧ SlabGrants slab

/-- A call that succeeds. -/
def LiveStep (env : BallocEnv) (s : LiveDir) (a : DirAct) (t : LiveDir) : Prop := a.Enabled env s ∧ a.run env s = some t

section Steps

variable {u : NovaInodeUpdate} {r : LiveDir.RenameTo} {isDir : Bool} {a : NameCall} {ino tail : Nat} {slab : Option Nat}
  {k : Int}

/-- Within the limits of the link count the dentry has it as it is. -/
theorem linksWritten_eq (hlow : 2 ≤ n) (hmax : n ≤ novaLinkMax) (hk : -1 ≤ k ∧ k ≤ 1) : (linksWritten n k : Int) = n + k := by
  unfold novaLinkMax at hmax
  have hsmall : n % 2 ^ 16 = n := Nat.mod_eq_of_lt (by omega)
  unfold linksWritten DentryUpdate.linksCount
  dsimp only
  rw [if_neg (by omega), Int.emod_eq_of_lt (by omega) (by omega)]
  omega

theorem LiveDir.invalidate_names (s : LiveDir) (verifies : Bool) (u : NovaInodeUpdate) :
    (s.invalidate verifies u).names = s.names := by
  rcases novaInvalidateDentries_dir s.sEpochId verifies s.listed u with hdir | ⟨p, w, -, hdir⟩
  · have hdir' : (s.invalidate verifies u).dir = s.dir := hdir
    unfold LiveDir.names
    rw [hdir']
  · have hdir' : (s.invalidate verifies u).dir = { s.dir with dentries := invalidatedAt s.dir.dentries p w } := hdir
    unfold LiveDir.names
    rw [hdir']
    ext name
    refine exists_congr fun q => and_congr_right fun _ => ?_
    have hname : (invalidatedAt s.dir.dentries p w q).name = (s.dir.dentries q).name := by
      unfold invalidatedAt
      split <;> rfl
    rw [hname]

theorem LiveDir.invalidateTarget_rest (s : LiveDir) (r : LiveDir.RenameTo) (u : NovaInodeUpdate) :
    (s.invalidateTarget r u).names = s.names ∧ (s.invalidateTarget r u).nlink = s.nlink := by
  unfold LiveDir.invalidateTarget
  cases r.target with
  | none => exact ⟨rfl, rfl⟩
  | some x => exact ⟨s.invalidate_names x.2.2 u, rfl⟩

/-- What is removed for a rename. -/
theorem LiveInv.removeTarget (h : LiveInv env s [] n)
    (hcan : ∀ append verifies, r.target = some (append, verifies) → s.CanRemove { r.new with append := append })
    (hrun : s.removeTarget env r = some (t, u)) :
    (∃ m, LiveInv env t (pairOf u) m) ∧ (r.target = none → t = s ∧ pairOf u = []) ∧ s.names \ {r.new.name} ⊆ t.names ∧
      t.nlink = s.nlink ∧ t.subdirs = s.subdirs := by
  unfold LiveDir.removeTarget at hrun
  cases htarget : r.target with
  | none =>
      rw [htarget] at hrun
      obtain ⟨rfl, rfl⟩ := Prod.mk.inj (Option.some.inj hrun)
      exact ⟨⟨n, h⟩, fun _ => ⟨rfl, rfl⟩, Set.diff_subset, rfl, rfl⟩
  | some x =>
      obtain ⟨append, verifies⟩ := x
      rw [htarget] at hrun
      obtain ⟨hinv, hnames, hnlink, hsub⟩ := h.removeDentry (hcan append verifies htarget) hrun
      exact ⟨⟨_, hinv⟩, by simp, hnames.symm ▸ subset_rfl, hnlink, hsub⟩

/-- The new name of a rename. -/
theorem LiveInv.addTo (h : LiveInv env s [] n) (hcan : s.CanRenameTo env isDir r) (hrun : s.addTo env r k = some (t, u)) :
    LiveInv env t (pairOf u) (linksWritten s.nlink k) ∧ (r.target = none → pairOf u = [] ∧ r.new.name ∉ s.names) ∧
      insert r.new.name s.names ⊆ t.names ∧ t.nlink = (if k > 0 then s.nlink + 1 else s.nlink) ∧ t.subdirs = s.subdirs := by
  unfold LiveDir.addTo at hrun
  obtain ⟨⟨s₁, u₁⟩, hremove, hadd⟩ := Option.bind_eq_some_iff.mp hrun
  obtain ⟨⟨s₂, u₂⟩, hadd, heq⟩ := Option.map_eq_some_iff.mp hadd
  obtain ⟨⟨m, hinv⟩, hnone, hsub₁, hnlink₁, hdirs₁⟩ := h.removeTarget hcan.target hremove
  obtain ⟨hinv₂, hout, hnames₂, hnlink₂, hdirs₂, hpair⟩ := hinv.addDentry (hcan.add _ hremove) hadd
  have hinv₂' : LiveInv env s₂ (pairOf u₂) (linksWritten s.nlink k) := by
    rw [hpair, ← hnlink₁]
    exact hinv₂
  obtain ⟨rfl, rfl⟩ := Prod.mk.inj heq
  have hinsert : insert r.new.name s.names ⊆ s₂.names := by
    rw [hnames₂]
    intro name hname
    by_cases heq : name = r.new.name
    · exact Or.inl heq
    · exact Or.inr (hsub₁ ⟨hname.resolve_left heq, heq⟩)
  refine ⟨?_, fun htarget => ?_, ?_, ?_, ?_⟩
  · split
    · exact hinv₂'.counted _ s₂.sEpochId s₂.subdirs
    · exact hinv₂'
  · obtain ⟨rfl, hpair₁⟩ := hnone htarget
    exact ⟨hpair.trans hpair₁, hout⟩
  · split
    · exact hinsert
    · exact hinsert
  · split
    · exact congrArg Nat.succ (hnlink₂.trans hnlink₁)
    · exact hnlink₂.trans hnlink₁
  · split
    · exact hdirs₂.trans hdirs₁
    · exact hdirs₂.trans hdirs₁

theorem LiveDir.dropNlink_eq (hpos : 0 < s.nlink) (hmax : s.nlink ≤ novaLinkMax) :
    s.dropNlink = { s with nlink := s.nlink - 1 } := by
  unfold novaLinkMax at hmax
  unfold LiveDir.dropNlink
  have hdrop : (s.nlink + (2 ^ 32 - 1)) % 2 ^ 32 = s.nlink - 1 := by omega
  rw [hdrop]

/-- The old name of a rename. -/
theorem LiveInv.removeFrom (h : LiveInv env s ps n) {r : LiveDir.RenameFrom} (hcan : s.CanRemove r.old)
    (hpos : 0 < s.nlink) (hmax : s.nlink ≤ novaLinkMax) (hrun : s.removeFrom env r k tail = some (t, u)) :
    LiveInv env t (ps ++ pairOf u) (linksWritten s.nlink k) ∧ t.names = s.names \ {r.old.name} ∧
      t.nlink = (if k < 0 then s.nlink - 1 else s.nlink) ∧ t.subdirs = s.subdirs := by
  unfold LiveDir.removeFrom at hrun
  obtain ⟨⟨s₁, u₁⟩, hremove, heq⟩ := Option.map_eq_some_iff.mp hrun
  obtain ⟨hinv, hnames, hnlink, hdirs⟩ := h.removeDentry hcan hremove
  dsimp only at heq
  by_cases hk : k < 0
  · rw [if_pos hk, LiveDir.dropNlink_eq (hnlink ▸ hpos) (hnlink ▸ hmax)] at heq
    obtain ⟨rfl, rfl⟩ := Prod.mk.inj heq
    rw [if_pos hk]
    exact ⟨hinv.counted (s₁.nlink - 1) s₁.sEpochId s₁.subdirs, hnames, congrArg (· - 1) hnlink, hdirs⟩
  · rw [if_neg hk] at heq
    obtain ⟨rfl, rfl⟩ := Prod.mk.inj heq
    rw [if_neg hk]
    exact ⟨hinv, hnames, hnlink, hdirs⟩

/-- The last thing that was written has the link count. -/
theorem LiveInv.soundOf {m : Nat} (h : LiveInv env t [] m) (hlinks : m = t.nlink) (hcount : t.nlink = 2 + t.subdirs.card)
    (hmax : t.nlink ≤ novaLinkMax) (hthere : ∀ name ∈ t.subdirs, name ∈ t.names) : LiveSound env t :=
  ⟨hlinks ▸ h, hcount, hmax, hthere⟩

theorem LiveSound.low (h : LiveSound env s) : 2 ≤ s.nlink := by
  rw [h.nlink]
  exact Nat.le_add_right _ _

/-- The link count that is written next to a change of at most one. -/
theorem LiveSound.written (h : LiveSound env s) (hk : -1 ≤ k ∧ k ≤ 1) : (linksWritten s.nlink k : Int) = s.nlink + k :=
  linksWritten_eq h.low h.max hk

theorem LiveSound.novaCreate (h : LiveSound env s) (hcan : s.CanAdd a ino slab)
    (hrun : s.novaCreate env a ino slab = some t) : LiveSound env t := by
  unfold LiveDir.novaCreate at hrun
  obtain ⟨⟨s₁, u₁⟩, hadd, rfl⟩ := Option.map_eq_some_iff.mp hrun
  obtain ⟨hinv, -, hnames, hnlink, hdirs, -⟩ := h.inv.addDentry hcan hadd
  have hlinks : linksWritten s.nlink 0 = s₁.nlink := by
    have hwritten := h.written (k := 0) (by decide)
    omega
  refine (hinv.tailTo u₁.tail).soundOf hlinks ?_ (hnlink.trans_le h.max) fun name hname => ?_
  · exact (hnlink.trans h.nlink).trans (congrArg (fun d => 2 + Finset.card d) hdirs.symm)
  · show name ∈ s₁.names
    rw [hnames]
    exact Or.inr (h.there name (hdirs ▸ hname))

theorem LiveSound.novaMkdir (h : LiveSound env s) (hcan : s.CanAdd a ino slab)
    (hrun : s.novaMkdir env a ino slab = some t) : LiveSound env t := by
  unfold LiveDir.novaMkdir at hrun
  by_cases hmax : s.nlink ≥ novaLinkMax
  · rw [if_pos hmax] at hrun
    simp at hrun
  · rw [if_neg hmax] at hrun
    obtain ⟨⟨s₁, u₁⟩, hadd, rfl⟩ := Option.map_eq_some_iff.mp hrun
    obtain ⟨hinv, hout, hnames, hnlink, hdirs, -⟩ := h.inv.addDentry hcan hadd
    have hlinks : linksWritten s.nlink 1 = s.nlink + 1 := by
      have hwritten := h.written (k := 1) (by decide)
      omega
    have hnew : a.name ∉ s.subdirs := fun hmem => hout (h.there _ hmem)
    refine ((hinv.tailTo u₁.tail).counted (s.nlink + 1) s₁.sEpochId (insert a.name s.subdirs)).soundOf hlinks ?_
      (Nat.lt_of_not_le hmax) fun name hname => ?_
    · show s.nlink + 1 = 2 + (insert a.name s.subdirs).card
      rw [Finset.card_insert_of_notMem hnew, h.nlink]
      rfl
    · show name ∈ s₁.names
      rw [hnames]
      rcases Finset.mem_insert.mp hname with rfl | hname
      · exact Or.inl rfl
      · exact Or.inr (h.there name hname)

theorem LiveSound.novaUnlink (h : LiveSound env s) {verifies : Bool × Bool} (hcan : s.CanRemove a)
    (hkind : a.name ∉ s.subdirs) (hrun : s.novaUnlink env a verifies = some t) : LiveSound env t := by
  unfold LiveDir.novaUnlink at hrun
  obtain ⟨⟨s₁, u₁⟩, hremove, rfl⟩ := Option.map_eq_some_iff.mp hrun
  obtain ⟨hinv, hnames, hnlink, hdirs⟩ := h.inv.removeDentry hcan hremove
  have hlinks : linksWritten s.nlink 0 = s₁.nlink := by
    have hwritten := h.written (k := 0) (by decide)
    omega
  have hinv' : LiveInv env (s₁.commit u₁) (pairOf u₁ ++ []) (linksWritten s.nlink 0) := by
    rw [List.append_nil]
    exact hinv.tailTo u₁.tail
  refine (hinv'.invalidate verifies.2).soundOf hlinks ?_ (hnlink.trans_le h.max) fun name hname => ?_
  · exact (hnlink.trans h.nlink).trans (congrArg (fun d => 2 + Finset.card d) hdirs.symm)
  · rw [LiveDir.invalidate_names]
    show name ∈ s₁.names
    rw [hnames]
    have hname : name ∈ s.subdirs := hdirs ▸ hname
    refine ⟨h.there name hname, ?_⟩
    rintro rfl
    exact hkind hname

theorem LiveSound.novaRmdir (h : LiveSound env s) {verifies : Bool × Bool} (hcan : s.CanRemove a)
    (hkind : a.name ∈ s.subdirs) (hrun : s.novaRmdir env a verifies = some t) : LiveSound env t := by
  unfold LiveDir.novaRmdir at hrun
  obtain ⟨⟨s₁, u₁⟩, hremove, rfl⟩ := Option.map_eq_some_iff.mp hrun
  obtain ⟨hinv, hnames, hnlink, hdirs⟩ := h.inv.removeDentry hcan hremove
  have hlow := h.low
  have hpos : s.nlink ≠ 0 := by omega
  have hlinks : linksWritten s.nlink (-1) = s₁.nlink - 1 := by
    have hwritten := h.written (k := -1) (by decide)
    omega
  have hinv' : LiveInv env (s₁.commit u₁) (pairOf u₁ ++ []) (linksWritten s.nlink (-1)) := by
    rw [List.append_nil]
    exact hinv.tailTo u₁.tail
  dsimp only
  rw [if_pos hpos, LiveDir.dropNlink_eq (by omega) (hnlink.trans_le h.max)]
  refine (((hinv'.counted (s₁.nlink - 1) s₁.sEpochId s₁.subdirs).invalidate verifies.2).counted (s₁.nlink - 1) s₁.sEpochId
    (s.subdirs.erase a.name)).soundOf hlinks ?_ ?_ fun name hname => ?_
  · show s₁.nlink - 1 = 2 + (s.subdirs.erase a.name).card
    have hcard := Finset.card_erase_add_one hkind
    have hcount := h.nlink
    omega
  · show s₁.nlink - 1 ≤ novaLinkMax
    have hmax := h.max
    omega
  · show name ∈ (({ s₁ with nlink := s₁.nlink - 1 } : LiveDir).commit u₁ |>.invalidate verifies.2 u₁).names
    rw [LiveDir.invalidate_names]
    show name ∈ s₁.names
    rw [hnames]
    have hname : name ∈ s.subdirs.erase a.name := hname
    exact ⟨h.there name (Finset.mem_of_mem_erase hname), Finset.ne_of_mem_erase hname⟩

theorem LiveSound.renameInto (h : LiveSound env s) (hcan : s.CanRenameTo env isDir r)
    (hrun : s.renameInto env isDir r = some t) : LiveSound env t := by
  unfold LiveDir.renameInto at hrun
  by_cases hmax : s.linkMaxReached isDir r = true
  · rw [if_pos hmax] at hrun
    simp at hrun
  · rw [if_neg hmax] at hrun
    obtain ⟨⟨s₁, u₁⟩, hadd, rfl⟩ := Option.map_eq_some_iff.mp hrun
    generalize hk : (if isDir = true ∧ r.target = none then (1 : Int) else 0) = k at hadd
    obtain ⟨hinv, hnone, hnames, hnlink, hdirs⟩ := h.inv.addTo hcan hadd
    have hinv' : LiveInv env (s₁.commit u₁) (pairOf u₁ ++ []) (linksWritten s.nlink k) := by
      rw [List.append_nil]
      exact hinv.tailTo u₁.tail
    have hinv'' := hinv'.invalidateTarget (r := r) fun htarget => (hnone htarget).1
    obtain ⟨hnames', hnlink'⟩ := LiveDir.invalidateTarget_rest (s₁.commit u₁) r u₁
    have hnlink'' : ((s₁.commit u₁).invalidateTarget r u₁).nlink = (if k > 0 then s.nlink + 1 else s.nlink) :=
      hnlink'.trans hnlink
    have hcase : (k = 1 ∧ s.nlink < novaLinkMax ∧ isDir = true ∧ r.new.name ∉ s.subdirs) ∨
        (k = 0 ∧ (isDir = true → r.new.name ∈ s.subdirs)) := by
      by_cases hnew : isDir = true ∧ r.target = none
      · rw [if_pos hnew] at hk
        refine Or.inl ⟨hk.symm, ?_, hnew.1, fun hmem => (hnone hnew.2).2 (h.there _ hmem)⟩
        unfold LiveDir.linkMaxReached at hmax
        simpa [hnew.1, hnew.2] using hmax
      · rw [if_neg hnew] at hk
        exact Or.inr ⟨hk.symm, fun hd => (hcan.kind fun htarget => hnew ⟨hd, htarget⟩).mpr hd⟩
    refine (hinv''.counted ((s₁.commit u₁).invalidateTarget r u₁).nlink ((s₁.commit u₁).invalidateTarget r u₁).sEpochId
      (if isDir then insert r.new.name s.subdirs else s.subdirs)).soundOf ?_ ?_ ?_ fun name hname => ?_
    · rw [hnlink'']
      have hwritten := h.written (k := k) (by omega)
      rcases hcase with ⟨rfl, -⟩ | ⟨rfl, -⟩ <;> simp_all <;> omega
    · rw [hnlink'']
      have hcount := h.nlink
      rcases hcase with ⟨rfl, -, rfl, hout⟩ | ⟨rfl, hin⟩
      · simp [Finset.card_insert_of_notMem hout, hcount]
        omega
      · cases isDir with
        | true => simp [Finset.insert_eq_of_mem (hin rfl), hcount]
        | false => simp [hcount]
    · rw [hnlink'']
      have hle := h.max
      rcases hcase with ⟨rfl, hlt, -⟩ | ⟨rfl, -⟩
      · exact Nat.succ_le_of_lt hlt
      · simpa using hle
    · show name ∈ ((s₁.commit u₁).invalidateTarget r u₁).names
      rw [hnames']
      have hname : name ∈ if isDir then insert r.new.name s.subdirs else s.subdirs := hname
      refine hnames ?_
      cases isDir with
      | true =>
          rcases Finset.mem_insert.mp hname with rfl | hname
          · exact Or.inl rfl
          · exact Or.inr (h.there name hname)
      | false => exact Or.inr (h.there name hname)

theorem LiveSound.renameOut (h : LiveSound env s) {r : LiveDir.RenameFrom} (hcan : s.CanRenameFrom isDir r)
    (hrun : s.renameOut env isDir r = some t) : LiveSound env t := by
  unfold LiveDir.renameOut at hrun
  obtain ⟨⟨s₁, u₁⟩, hremove, rfl⟩ := Option.map_eq_some_iff.mp hrun
  generalize hk : (if isDir = true then (-1 : Int) else 0) = k at hremove
  have hlow := h.low
  obtain ⟨hinv, hnames, hnlink, hdirs⟩ := h.inv.removeFrom hcan.remove (by omega) h.max hremove
  have hinv' : LiveInv env (s₁.commit u₁) (pairOf u₁ ++ []) (linksWritten s.nlink k) := by
    rw [List.append_nil]
    exact hinv.tailTo u₁.tail
  have hcount := h.nlink
  have hmax := h.max
  refine ((hinv'.invalidate r.verifies.2).counted s₁.nlink s₁.sEpochId
    (if isDir then s.subdirs.erase r.old.name else s.subdirs)).soundOf ?_ ?_ ?_ fun name hname => ?_
  · show _ = s₁.nlink
    have hwritten := h.written (k := k) (by cases isDir <;> simp at hk <;> omega)
    rw [hnlink]
    cases isDir <;> simp at hk <;> subst hk <;> simp at hwritten ⊢ <;> omega
  · show s₁.nlink = 2 + (if isDir then s.subdirs.erase r.old.name else s.subdirs).card
    rw [hnlink, ← hk]
    cases isDir with
    | true =>
        have hcard := Finset.card_erase_add_one (hcan.kind.mpr rfl)
        simp
        omega
    | false => simpa using hcount
  · show s₁.nlink ≤ novaLinkMax
    rw [hnlink]
    split <;> omega
  · show name ∈ ((s₁.commit u₁).invalidate r.verifies.2 u₁).names
    rw [LiveDir.invalidate_names]
    show name ∈ s₁.names
    rw [hnames]
    have hname : name ∈ if isDir then s.subdirs.erase r.old.name else s.subdirs := hname
    cases isDir with
    | true => exact ⟨h.there name (Finset.mem_of_mem_erase hname), Finset.ne_of_mem_erase hname⟩
    | false =>
        refine ⟨h.there name hname, ?_⟩
        rintro rfl
        simpa using hcan.kind.mp hname

theorem LiveSound.renameWithin (h : LiveSound env s) {new : LiveDir.RenameTo} {old : LiveDir.RenameFrom}
    (hcan : s.CanRenameTo env isDir new) (hold : s.CanRenameFrom isDir old) (hne : old.old.name ≠ new.new.name)
    (hfresh : ∀ x, s.addTo env new (LiveDir.incLinkWithin isDir new) = some x → x.1.Fresh old.old.append)
    (hrun : s.renameWithin env isDir new old = some t) : LiveSound env t := by
  unfold LiveDir.renameWithin at hrun
  by_cases hreached : s.linkMaxReached isDir new = true
  · rw [if_pos hreached] at hrun
    simp at hrun
  · rw [if_neg hreached] at hrun
    dsimp only at hrun
    obtain ⟨⟨s₁, u₁⟩, hadd, hrest⟩ := Option.bind_eq_some_iff.mp hrun
    obtain ⟨⟨s₂, u₂⟩, hremove, rfl⟩ := Option.map_eq_some_iff.mp hrest
    generalize hk : (if isDir = true ∧ LiveDir.incLinkWithin isDir new ≠ 0 then (-1 : Int) else 0) = k at hremove
    obtain ⟨hinv, hnone, hnames, hnlink, hdirs⟩ := h.inv.addTo hcan hadd
    have hcase : (k = 0 ∧ isDir = true ∧ new.new.name ∉ s.subdirs) ∨ (k = -1 ∧ isDir = true ∧ new.new.name ∈ s.subdirs) ∨
        (k = 0 ∧ isDir = false) := by
      unfold LiveDir.incLinkWithin at hk
      cases isDir with
      | false => exact Or.inr (Or.inr ⟨by simpa using hk.symm, rfl⟩)
      | true =>
          by_cases htarget : new.target = none
          · refine Or.inl ⟨by simpa [htarget] using hk.symm, rfl, fun hmem => ?_⟩
            exact (hnone htarget).2 (h.there _ hmem)
          · exact Or.inr (Or.inl ⟨by simpa [htarget] using hk.symm, rfl, (hcan.kind htarget).mpr rfl⟩)
    have hsame : s₁.nlink = s.nlink := by
      rw [hnlink, if_neg]
      unfold LiveDir.incLinkWithin
      split
      · split <;> decide
      · decide
    have hlow := h.low
    have hmax := h.max
    have hcount := h.nlink
    obtain ⟨hinv₂, hnames₂, hnlink₂, hdirs₂⟩ := hinv.removeFrom ⟨hfresh _ hadd, hold.remove.nul, hold.remove.parent⟩
      (by omega) (hsame.trans_le hmax) hremove
    have hinv' : LiveInv env (s₂.commit u₂) (pairOf u₁ ++ (pairOf u₂ ++ [])) (linksWritten s₁.nlink k) := by
      rw [List.append_nil]
      exact hinv₂.tailTo u₂.tail
    have hinv'' := (hinv'.invalidateTarget (r := new) fun htarget => (hnone htarget).1).invalidate old.verifies.2
    obtain ⟨hnames', hnlink'⟩ := LiveDir.invalidateTarget_rest (s₂.commit u₂) new u₁
    let s₃ := ((s₂.commit u₂).invalidateTarget new u₁).invalidate old.verifies.2 u₂
    have hnlink₃ : s₃.nlink = (if k < 0 then s.nlink - 1 else s.nlink) := by
      rw [← hsame, ← hnlink₂]
      exact hnlink'
    have hnames₃ : s₃.names = s₁.names \ {old.old.name} := by
      rw [← hnames₂]
      exact (LiveDir.invalidate_names _ _ _).trans hnames'
    refine (hinv''.counted s₃.nlink s₃.sEpochId
      (if isDir then insert new.new.name (s.subdirs.erase old.old.name) else s.subdirs)).soundOf ?_ ?_ ?_ fun name hname => ?_
    · show _ = s₃.nlink
      rw [hnlink₃, hsame]
      have hwritten := h.written (k := k) (by omega)
      split <;> omega
    · show s₃.nlink = 2 + (if isDir then insert new.new.name (s.subdirs.erase old.old.name) else s.subdirs).card
      rw [hnlink₃]
      rcases hcase with ⟨rfl, rfl, hout⟩ | ⟨rfl, rfl, hin⟩ | ⟨rfl, rfl⟩
      · have hcard := Finset.card_erase_add_one (hold.kind.mpr rfl)
        rw [if_pos rfl, Finset.card_insert_of_notMem fun hmem => hout (Finset.mem_of_mem_erase hmem), hcard]
        exact hcount
      · have hcard := Finset.card_erase_add_one (hold.kind.mpr rfl)
        rw [if_pos rfl, Finset.insert_eq_of_mem (Finset.mem_erase.mpr ⟨Ne.symm hne, hin⟩), if_pos (by decide)]
        omega
      · exact hcount
    · show s₃.nlink ≤ novaLinkMax
      rw [hnlink₃]
      split <;> omega
    · show name ∈ s₃.names
      rw [hnames₃]
      have hname : name ∈ if isDir then insert new.new.name (s.subdirs.erase old.old.name) else s.subdirs := hname
      have hkept : name = new.new.name ∨ name ∈ s.subdirs ∧ name ≠ old.old.name := by
        cases isDir with
        | true => simpa [and_comm] using hname
        | false =>
            refine Or.inr ⟨hname, ?_⟩
            rintro rfl
            simpa using hold.kind.mp hname
      rcases hkept with rfl | ⟨hname, hother⟩
      · exact ⟨hnames (Or.inl rfl), Ne.symm hne⟩
      · exact ⟨hnames (Or.inr (h.there name hname)), hother⟩

/-- What leaves the names and the count as they are. -/
theorem LiveSound.same (h : LiveSound env s) (hinv : LiveInv env t [] s.nlink)
    (hrest : t.names = s.names ∧ t.nlink = s.nlink ∧ t.subdirs = s.subdirs) : LiveSound env t := by
  obtain ⟨hnames, hnlink, hdirs⟩ := hrest
  refine hinv.soundOf hnlink.symm ?_ (hnlink.trans_le h.max) ?_
  · rw [hnlink, hdirs]
    exact h.nlink
  · rw [hnames, hdirs]
    exact h.there

/-- The link count fits an `unsigned short`. -/
theorem LiveSound.short (h : LiveSound env s) : s.nlink % 2 ^ 16 = s.nlink := by
  have hmax := h.max
  unfold novaLinkMax at hmax
  exact Nat.mod_eq_of_lt (by omega)

theorem LiveSound.ioctlSet (h : LiveSound env s) {e : NovaLinkChangeEntry} {append : AppendLink}
    (hfresh : ∀ p, append = .appended p → .linkChange p ∉ s.log) (hrun : s.ioctlSet e append = some t) :
    LiveSound env t := by
  unfold LiveDir.ioctlSet at hrun
  obtain ⟨s₁, hchange, rfl⟩ := Option.map_eq_some_iff.mp hrun
  obtain ⟨hinv, hrest⟩ := h.inv.appendLinkChange hfresh hchange
  exact h.same (h.short ▸ hinv.nextTrans) hrest

theorem LiveSound.renameSelf (h : LiveSound env s) {e : NovaLinkChangeEntry} {append : AppendLink} {newDir : Option Nat}
    (hfresh : ∀ p, append = .appended p → .linkChange p ∉ s.log) (hnewDir : newDir ≠ some 0)
    (hrun : s.renameSelf e append newDir = some t) : LiveSound env t := by
  unfold LiveDir.renameSelf at hrun
  obtain ⟨s₁, hchange, rfl⟩ := Option.map_eq_some_iff.mp hrun
  obtain ⟨hinv, hnames, hrest⟩ := h.inv.appendLinkChange hfresh hchange
  rw [h.short] at hinv
  cases newDir with
  | none => exact h.same hinv ⟨hnames, hrest⟩
  | some ino =>
      have hino : ino ≠ 0 := fun h0 => hnewDir (by rw [h0])
      obtain ⟨hparent, hsame⟩ := hinv.newParent hino
      exact h.same hparent ⟨hsame.trans hnames, hrest⟩

/-- **Every call keeps what a rebuild needs.** -/
theorem LiveSound.step (h : LiveSound env s) {act : DirAct} (hstep : LiveStep env s act t) : LiveSound env t := by
  obtain ⟨hcan, hrun⟩ := hstep
  cases act with
  | create a ino slab => exact h.novaCreate hcan hrun
  | mkdir a ino slab => exact h.novaMkdir hcan hrun
  | unlink a verifies => exact h.novaUnlink hcan.1 hcan.2 hrun
  | rmdir a verifies => exact h.novaRmdir hcan.1 hcan.2 hrun
  | renameInto isDir r => exact h.renameInto hcan hrun
  | renameOut isDir r => exact h.renameOut hcan hrun
  | renameWithin isDir new old => exact h.renameWithin hcan.1 hcan.2.1 hcan.2.2.1 hcan.2.2.2 hrun
  | setattr e append =>
      obtain ⟨hinv, hrest⟩ := h.inv.novaNotifyChange hcan.2 hrun
      exact h.same hinv hrest
  | ioctl e append => exact h.ioctlSet hcan hrun
  | renameSelf e append newDir => exact h.renameSelf hcan.1 hcan.2 hrun
  | snapshot =>
      obtain rfl := Option.some.inj hrun
      exact h.same (h.inv.counted s.nlink (s.sEpochId + 1) s.subdirs) ⟨rfl, rfl, rfl⟩
  | remount verifies slab =>
      obtain ⟨hinv, hrest⟩ := h.inv.remount hcan.1 hcan.2 hrun
      exact h.same hinv hrest

/-- A new directory has nothing but `.` and `..`. -/
theorem LiveSound.start {pi : NovaInodeRebuild} {newBlock selfIno parentIno epochId mtime sEpochId : Nat}
    {verifies : DirRecord → Bool} {nodes : Nat → List Nat → Option Nat} (hblock : newBlock ≠ 0) (hself : selfIno ≠ 0)
    (hparent : parentIno ≠ 0) (hmedia : ∀ r, verifies r = true) (hslab : SlabGrants nodes)
    (hnew : newLiveDir env (novaAppendDirInitEntries pi newBlock selfIno parentIno epochId mtime) verifies nodes sEpochId =
      some s) : LiveSound env s := by
  generalize himg : novaAppendDirInitEntries pi newBlock selfIno parentIno epochId mtime = img at hnew
  obtain ⟨hsound, hnodup, hname, hino, hlinks⟩ := novaAppendDirInitEntries_sound hblock hself hparent himg.symm rfl
  obtain ⟨d, hd, hrebuilt⟩ := hsound.rebuilt env hmedia hslab
  unfold newLiveDir at hnew
  rw [hd] at hnew
  obtain rfl := Option.some.inj hnew
  have hhead : img.logHead = newBlock := by
    rw [← himg]
    rfl
  have hlog : img.log = [.dirLog newBlock, .dirLog (newBlock + novaDirLogRecLen 1)] := by
    rw [← himg]
    rfl
  refine (hrebuilt.live hsound hnodup rfl rfl ⟨rfl, rfl, rfl⟩ ⟨rfl, rfl⟩ ?_ ?_).soundOf hlinks rfl ?_ ?_
  · rw [hlog]
    rfl
  · show .dirLog (img.logHead + novaDirLogRecLen 1) ∈ img.log ∧ _
    rw [hhead]
    refine ⟨?_, hname, hino⟩
    rw [hlog]
    simp
  · show 2 ≤ novaLinkMax
    decide
  · intro name hmem
    exact absurd hmem (Finset.notMem_empty name)

end Steps

/-! ### A rebuilt directory -/

end Live

/-! ### A run -/

/-- A node past all that are in use. -/
def freeNode (_ : Nat) (used : List Nat) : Option Nat := some (used.sum + 1)

theorem freeNode_grants : SlabGrants freeNode := by
  intro p used
  refine ⟨used.sum + 1, rfl, fun hmem => ?_⟩
  exact absurd (List.le_sum_of_mem hmem) (by omega)

/-- A directory that was just made, with its log at 4096. -/
def newDirImage : DirImage := novaAppendDirInitEntries ⟨0, 0, 0, 0, 0, 0, 0, 0, 2, 16877, 0⟩ 4096 40 2 1 0

def newDir : LiveDir := (newLiveDir plainDirEnv newDirImage (fun _ => true) freeNode 1).get (by decide +kernel)

/-- A directory `d` is made in it. -/
def mkdirD : DirAct := .mkdir ⟨[100], 0, .appended 4208⟩ 41 (some 99)

def newDirD : LiveDir := (mkdirD.run plainDirEnv newDir).get (by decide +kernel)

theorem newDirD_step : LiveStep plainDirEnv newDir mkdirD newDirD := by
  refine ⟨⟨?_, by decide, ?_⟩, (Option.some_get _).symm⟩
  · intro w hw
    obtain rfl := AppendDentry.appended.inj hw
    exact ⟨by decide, by decide +kernel⟩
  · intro addr haddr
    obtain rfl := Option.some.inj haddr
    decide +kernel

end Parfs
