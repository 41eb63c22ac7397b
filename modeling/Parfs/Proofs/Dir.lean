/-
What a directory maps its names to.

The tree of a directory is a table from hashes to dentries, and the names that were added
and not removed are kept in it under their hashes.  A name whose hash the tree holds cannot
be added, so no two names that are present share one, and each of them is found.  A name that
is absent is not found exactly when none of them has its hash.

Removing a name erases its node first.  When its dentry then fails its check, or no room is
left to log the removal, the name is still there on media and can no longer be found.
-/
import Parfs.Lib.Keyed
import Parfs.Lib.Run
import Parfs.Dir
import Parfs.Proofs.Balloc

namespace Parfs

open Lib

variable {env : BallocEnv}

/-! ### The tree -/

/-- What the tree functions keep of the nodes of a directory. -/
structure DirNodesOk (env : BallocEnv) (l : List RangeNode) : Prop where
  sorted : l.Pairwise fun a b => a.hash < b.hash
  checksum : ∀ n ∈ l, novaRangeNodeChecksumOk env n = true
  nodup : (l.map RangeNode.addr).Nodup

section Tree

variable {l A B : List RangeNode} {n c : RangeNode} {tree tree' : RbTree RangeNode} {key : Nat}

@[simp] theorem novaRbtreeCompareDirnode_gt : novaRbtreeCompareDirnode key n = .gt ↔ n.hash < key := by
  unfold novaRbtreeCompareDirnode
  split
  · simp
    omega
  · split
    · simpa
    · simpa using by omega

@[simp] theorem novaRbtreeCompareDirnode_lt : novaRbtreeCompareDirnode key n = .lt ↔ key < n.hash := by
  unfold novaRbtreeCompareDirnode
  split
  · simpa
  · split
    · simpa using by omega
    · simpa using by omega

@[simp] theorem novaRbtreeCompareDirnode_eq : novaRbtreeCompareDirnode key n = .eq ↔ n.hash = key := by
  unfold novaRbtreeCompareDirnode
  split
  · simpa using by omega
  · split
    · simpa using by omega
    · simpa using by omega

theorem DirNodesOk.cut (h : DirNodesOk env l) (key : Nat) : RbTree.Cut (novaRbtreeCompareDirnode key) l := by
  refine h.sorted.imp fun {a b} hab => ?_
  rw [novaRbtreeCompareDirnode_gt, novaRbtreeCompareDirnode_lt]
  omega

/-- A node that can stand between the others. -/
theorem DirNodesOk.insert (h : DirNodesOk env (A ++ B)) (hA : ∀ a ∈ A, a.hash < n.hash)
    (hB : ∀ b ∈ B, n.hash < b.hash) (hok : novaRangeNodeChecksumOk env n = true)
    (haddr : n.addr ∉ (A ++ B).map RangeNode.addr) : DirNodesOk env (A ++ n :: B) := by
  obtain ⟨hsortA, hsortB, hcross⟩ := List.pairwise_append.mp h.sorted
  refine ⟨?_, ?_, ?_⟩
  · refine List.pairwise_append.mpr ⟨hsortA, List.pairwise_cons.mpr ⟨hB, hsortB⟩, ?_⟩
    intro a ha b hb
    rcases List.mem_cons.mp hb with rfl | hb
    · exact hA a ha
    · exact hcross a ha b hb
  · intro c hc
    rcases List.mem_append.mp hc with hc | hc
    · exact h.checksum c (by simp [hc])
    · rcases List.mem_cons.mp hc with rfl | hc
      · exact hok
      · exact h.checksum c (by simp [hc])
  · rw [List.map_append, List.map_cons]
    refine List.perm_middle.nodup_iff.mpr (List.nodup_cons.mpr ⟨?_, ?_⟩)
    · simpa using haddr
    · simpa using h.nodup

theorem DirNodesOk.erase (h : DirNodesOk env (A ++ n :: B)) : DirNodesOk env (A ++ B) := by
  have hsub : (A ++ B).Sublist (A ++ n :: B) := (List.sublist_cons_self n B).append_left A
  exact ⟨h.sorted.sublist hsub, fun c hc => h.checksum c (hsub.subset hc), h.nodup.sublist (hsub.map _)⟩

/-- The other nodes lie on both sides of a node. -/
theorem DirNodesOk.around (h : DirNodesOk env (A ++ n :: B)) :
    (∀ a ∈ A, a.hash < n.hash) ∧ (∀ b ∈ B, n.hash < b.hash) ∧
      n.addr ∉ A.map RangeNode.addr ∧ n.addr ∉ B.map RangeNode.addr := by
  obtain ⟨-, hsort, hcross⟩ := List.pairwise_append.mp h.sorted
  have hnodup := h.nodup
  rw [List.map_append, List.map_cons] at hnodup
  have hmid := (List.nodup_cons.mp (List.perm_middle.nodup_iff.mp hnodup)).1
  rw [List.mem_append, not_or] at hmid
  exact ⟨fun a ha => hcross a ha n (by simp), (List.pairwise_cons.mp hsort).1, hmid.1, hmid.2⟩

/-- The table from hashes to dentries. -/
def dirTable (l : List RangeNode) (hash : Nat) : Option Nat :=
  (l.find? fun n => n.hash = hash).map RangeNode.direntry

theorem dirTable_insert (hfree : dirTable (A ++ B) n.hash = none) :
    dirTable (A ++ n :: B) = Function.update (dirTable (A ++ B)) n.hash (some n.direntry) := by
  funext hash
  unfold dirTable at hfree ⊢
  rw [List.find?_append, List.find?_cons]
  by_cases hn : hash = n.hash
  · subst hn
    rw [List.find?_append, Option.map_eq_none_iff, Option.or_eq_none_iff] at hfree
    simp [hfree.1]
  · rw [Function.update_of_ne hn, List.find?_append]
    simp [Ne.symm hn]

theorem dirTable_erase (h : DirNodesOk env (A ++ n :: B)) :
    dirTable (A ++ B) = Function.update (dirTable (A ++ n :: B)) n.hash none := by
  obtain ⟨hA, hB, -, -⟩ := h.around
  funext hash
  by_cases hn : hash = n.hash
  · subst hn
    rw [Function.update_self]
    refine Option.map_eq_none_iff.mpr (List.find?_eq_none.mpr ?_)
    intro c hc
    rcases List.mem_append.mp hc with hc | hc
    · simpa using Nat.ne_of_lt (hA c hc)
    · simpa using Nat.ne_of_gt (hB c hc)
  · unfold dirTable
    rw [Function.update_of_ne hn, List.find?_append, List.find?_append, List.find?_cons]
    simp [Ne.symm hn]

theorem dirTable_mem {p : Nat} (h : dirTable l key = some p) : ∃ n ∈ l, n.hash = key ∧ n.direntry = p := by
  obtain ⟨n, hfind, hp⟩ := Option.map_eq_some_iff.mp h
  exact ⟨n, List.mem_of_find?_eq_some hfind, by simpa using List.find?_some hfind, hp⟩

theorem dirTable_none (h : dirTable l key = none) : ∀ n ∈ l, n.hash ≠ key := by
  intro n hn
  have := List.find?_eq_none.mp (Option.map_eq_none_iff.mp h) n hn
  simpa using this

/-- A search of the tree is a lookup in the table. -/
theorem novaFindDirnode_spec (h : DirNodesOk env tree.toList) (key : Nat) :
    (∃ n A B, novaFindDirnode env tree key = (true, some n) ∧ tree.toList = A ++ n :: B ∧ n.hash = key ∧
        dirTable tree.toList key = some n.direntry) ∨
      (∃ res, novaFindDirnode env tree key = (false, res) ∧ dirTable tree.toList key = none) := by
  unfold novaFindDirnode
  rcases hwalk : RbTree.descend (novaRbtreeCompareDirnode key) none tree with ⟨found, res⟩
  cases found with
  | true =>
      obtain ⟨n, rfl, hmem, heq⟩ := RbTree.descend_hit tree hwalk
      obtain ⟨A, B, hAB⟩ := List.append_of_mem hmem
      have hkey := novaRbtreeCompareDirnode_eq.mp heq
      refine Or.inl ⟨n, A, B, by simp [h.checksum n hmem], hAB, hkey, ?_⟩
      rw [hAB] at h ⊢
      obtain ⟨hA, -, -, -⟩ := h.around
      have hnone : A.find? (fun m => decide (m.hash = key)) = none := by
        refine List.find?_eq_none.mpr fun a ha => ?_
        have := hA a ha
        simp
        omega
      unfold dirTable
      rw [List.find?_append, hnone, List.find?_cons]
      simp [hkey]
  | false =>
      right
      obtain ⟨A, B, hAB, hA, hB, -⟩ := RbTree.descend_miss tree (h.cut key) hwalk
      have hnone : dirTable tree.toList key = none := by
        refine Option.map_eq_none_iff.mpr (List.find?_eq_none.mpr fun n hn => ?_)
        rw [hAB] at hn
        rcases List.mem_append.mp hn with hn | hn
        · have := novaRbtreeCompareDirnode_gt.mp (hA n hn)
          simp
          omega
        · have := novaRbtreeCompareDirnode_lt.mp (hB n hn)
          simp
          omega
      cases res with
      | none => exact ⟨none, rfl, hnone⟩
      | some n =>
          by_cases hok : novaRangeNodeChecksumOk env n = true
          · exact ⟨some n, by simp [hok], hnone⟩
          · exact ⟨none, by simp [hok], hnone⟩

/-- A node is inserted unless the table holds its hash. -/
theorem novaInsertDirnode_spec (h : DirNodesOk env tree.toList) (hok : novaRangeNodeChecksumOk env n = true)
    (haddr : n.addr ∉ tree.toList.map RangeNode.addr) :
    (∃ tree', novaInsertDirnode env tree n = .ok tree' ∧ dirTable tree.toList n.hash = none ∧
        DirNodesOk env tree'.toList ∧ (∀ c ∈ tree'.toList, c = n ∨ c ∈ tree.toList) ∧
        dirTable tree'.toList = Function.update (dirTable tree.toList) n.hash (some n.direntry)) ∨
      (novaInsertDirnode env tree n = .error .einval ∧ dirTable tree.toList n.hash ≠ none) := by
  unfold novaInsertDirnode
  cases hlink : RbTree.link (novaRbtreeCompareDirnode n.rangeLow) n tree with
  | none =>
      obtain ⟨c, hc, heq⟩ := RbTree.link_none n tree hlink
      exact Or.inr ⟨rfl, fun hnone => dirTable_none hnone c hc (novaRbtreeCompareDirnode_eq.mp heq)⟩
  | some tree' =>
      obtain ⟨A, B, hAB, hA, hB, hlist⟩ := RbTree.link_some n tree (h.cut _) hlink
      have hA' : ∀ a ∈ A, a.hash < n.hash := fun a ha => novaRbtreeCompareDirnode_gt.mp (hA a ha)
      have hB' : ∀ b ∈ B, n.hash < b.hash := fun b hb => novaRbtreeCompareDirnode_lt.mp (hB b hb)
      have hnone : dirTable (A ++ B) n.hash = none := by
        refine Option.map_eq_none_iff.mpr (List.find?_eq_none.mpr fun c hc => ?_)
        rcases List.mem_append.mp hc with hc | hc
        · simpa using Nat.ne_of_lt (hA' c hc)
        · simpa using Nat.ne_of_gt (hB' c hc)
      rw [hAB] at h haddr ⊢
      refine Or.inl ⟨env.rb.insertColor tree', rfl, hnone, ?_, ?_, ?_⟩
      · rw [RbOps.insertColor_toList, hlist]
        exact h.insert hA' hB' hok haddr
      · intro c hc
        rw [RbOps.insertColor_toList, hlist] at hc
        simp only [List.mem_append, List.mem_cons] at hc ⊢
        tauto
      · rw [RbOps.insertColor_toList, hlist]
        exact dirTable_insert hnone

end Tree

/-! ### Lookup, insertion and removal -/

section Operations

variable {d d' : NovaDir} {name : List UInt8}

/-- The nodes of the directory, in the order of their hashes. -/
def NovaDir.nodes (d : NovaDir) : List RangeNode := d.rbTree.toList

/-- The key a name is kept under. -/
def dirKey (name : List UInt8) : Nat := (bkdrHash name).toNat

theorem novaFindDentry_eq (h : DirNodesOk env d.nodes) (name : List UInt8) :
    novaFindDentry env d name = dirTable d.nodes (dirKey name) := by
  unfold novaFindDentry
  rcases novaFindDirnode_spec h (dirKey name) with ⟨n, A, B, hfind, -, hkey, htable⟩ | ⟨res, hfind, htable⟩
  · dsimp only
    rw [show (bkdrHash name).toNat = dirKey name from rfl, hfind, NovaDir.nodes, htable]
    simp [hkey]
  · dsimp only
    rw [show (bkdrHash name).toNat = dirKey name from rfl, hfind, NovaDir.nodes, htable]

theorem novaInsertDirTree_spec (h : DirNodesOk env d.nodes) (name : List UInt8) (p : Nat) {slab : Option Nat}
    (hslab : ∀ addr, slab = some addr → addr ∉ d.nodes.map RangeNode.addr) :
    (∃ tree, novaInsertDirTree env d name p slab = ({ d with rbTree := tree }, .ok ()) ∧
        dirTable d.nodes (dirKey name) = none ∧ DirNodesOk env tree.toList ∧
        dirTable tree.toList = Function.update (dirTable d.nodes) (dirKey name) (some p)) ∨
      (∃ e, novaInsertDirTree env d name p slab = (d, .error e)) := by
  unfold novaInsertDirTree
  cases slab with
  | none => exact Or.inr ⟨_, rfl⟩
  | some addr =>
      let n := novaFreshNode env addr (bkdrHash name).toNat p
      have hok : novaRangeNodeChecksumOk env n = true := novaRangeNodeChecksumOk_update _
      have hhash : n.hash = dirKey name := novaUpdateRangeNodeChecksum_rangeLow _
      have hentry : n.direntry = p := novaUpdateRangeNodeChecksum_rangeHigh _
      have haddr : n.addr = addr := novaUpdateRangeNodeChecksum_addr _
      rcases novaInsertDirnode_spec h hok (by rw [haddr]; exact hslab addr rfl) with
        ⟨tree, hins, hfree, hnodes, -, htable⟩ | ⟨hins, -⟩
      · rw [hhash] at hfree htable
        rw [hentry] at htable
        exact Or.inl ⟨tree, by simp [n, hins] , hfree, hnodes, htable⟩
      · exact Or.inr ⟨.einval, by simp [n, hins]⟩

/-- A name goes into the tree when there is memory for a node and its hash is free. -/
theorem novaInsertDirTree_ok_iff (h : DirNodesOk env d.nodes) (name : List UInt8) (p : Nat) {slab : Option Nat}
    (hslab : ∀ addr, slab = some addr → addr ∉ d.nodes.map RangeNode.addr) :
    (novaInsertDirTree env d name p slab).2 = .ok () ↔ slab ≠ none ∧ dirTable d.nodes (dirKey name) = none := by
  unfold novaInsertDirTree
  cases slab with
  | none => simp
  | some addr =>
      let n := novaFreshNode env addr (bkdrHash name).toNat p
      have hok : novaRangeNodeChecksumOk env n = true := novaRangeNodeChecksumOk_update _
      have hhash : n.hash = dirKey name := novaUpdateRangeNodeChecksum_rangeLow _
      have haddr : n.addr = addr := novaUpdateRangeNodeChecksum_addr _
      rcases novaInsertDirnode_spec h hok (by rw [haddr]; exact hslab addr rfl) with
        ⟨tree, hins, hfree, -, -, -⟩ | ⟨hins, htaken⟩
      · rw [hhash] at hfree
        exact iff_of_true (by simp [n, hins]) ⟨by simp, hfree⟩
      · rw [hhash] at htaken
        exact iff_of_false (by simp [n, hins]) fun hand => htaken hand.2

/-- The node of a name goes before its dentry is looked at. -/
theorem novaRemoveDirTree_spec (name : List UInt8) (h : DirNodesOk env d.nodes) {p : Nat}
    (hp : dirTable d.nodes (dirKey name) = some p) (verifies : Bool) :
    ∃ tree, (novaRemoveDirTree env d name verifies).1 = { d with rbTree := tree } ∧ DirNodesOk env tree.toList ∧
      dirTable tree.toList = Function.update (dirTable d.nodes) (dirKey name) none ∧
      (novaRemoveDirTree env d name verifies).2 =
        if verifies ∧ (d.dentries p).ino ≠ 0 ∧ (d.dentries p).invalid = false ∧
            novaCheckDentryMatch (d.dentries p) name = false then .ok p else .error .einval := by
  rcases novaFindDirnode_spec h (dirKey name) with ⟨n, A, B, hfind, hAB, hkey, htable⟩ | ⟨res, -, htable⟩
  · have hpn : n.direntry = p := by
      have := htable.symm.trans hp
      simpa using this
    have hnodes : d.nodes = A ++ n :: B := hAB
    rw [hnodes] at h
    obtain ⟨-, -, haddrA, haddrB⟩ := h.around
    let tree := env.rb.erase (fun c => c.addr == n.addr) d.rbTree
    have herase : tree.toList = A ++ B := by
      rw [RbOps.erase_toList, hAB, List.filter_append, List.filter_cons, filter_of_notMem haddrA,
        filter_of_notMem haddrB]
      simp
    refine ⟨tree, ?_, by rw [herase]; exact h.erase, ?_, ?_⟩
    · unfold novaRemoveDirTree
      rw [show (bkdrHash name).toNat = dirKey name from rfl, hfind]
      dsimp only
      split
      · rfl
      · split <;> rfl
    · rw [herase, hnodes, ← hkey]
      exact dirTable_erase h
    · unfold novaRemoveDirTree
      rw [show (bkdrHash name).toNat = dirKey name from rfl, hfind]
      dsimp only
      rw [hpn]
      cases verifies with
      | false => simp
      | true =>
          by_cases hbad : (d.dentries p).ino = 0 ∨ (d.dentries p).invalid = true ∨
              novaCheckDentryMatch (d.dentries p) name = true
          · rw [if_neg (by simp), if_pos hbad, if_neg]
            rintro ⟨-, hino, hinv, hmatch⟩
            rcases hbad with hbad | hbad | hbad
            · exact hino hbad
            · simp [hinv] at hbad
            · simp [hmatch] at hbad
          · rw [if_neg (by simp), if_neg hbad, if_pos]
            simpa [not_or] using hbad
  · rw [NovaDir.nodes, htable] at hp
    cases hp

theorem strncmp_self (as : List UInt8) (n : Nat) : strncmp as as n = false := by
  induction as generalizing n with
  | nil => rfl
  | cons a as ih =>
      cases n with
      | zero => rfl
      | succ n => simp [strncmp, ih]

/-- A dentry matches its own name. -/
theorem novaCheckDentryMatch_self (e : LogDentry) : novaCheckDentryMatch e e.name = false := by
  simp [novaCheckDentryMatch, strncmp_self]

/-- The address the append stored a dentry at. -/
def AppendDentry.written : AppendDentry → Option Nat
  | .refused _ p => p
  | .appended p => some p

/-- An addition that fails leaves the tree alone; the dentry was stored where nothing leads. -/
theorem novaAddDentry_spec (h : DirNodesOk env d.nodes) (c : DentryCall) (ino : Nat) {slab : Option Nat}
    (update : NovaInodeUpdate) (hname : 0 < c.name.length)
    (hslab : ∀ addr, slab = some addr → addr ∉ d.nodes.map RangeNode.addr) :
    (∀ q, c.append.written ≠ some q → (novaAddDentry env d c ino slab update).1.dentries q = d.dentries q) ∧
    ((∃ e, (novaAddDentry env d c ino slab update).2 = .error e ∧
        (novaAddDentry env d c ino slab update).1.nodes = d.nodes) ∨
      (∃ u, (novaAddDentry env d c ino slab update).2 = .ok u ∧ c.append.written = some u.currEntry ∧
        dirTable d.nodes (dirKey c.name) = none ∧
        DirNodesOk env (novaAddDentry env d c ino slab update).1.nodes ∧
        dirTable (novaAddDentry env d c ino slab update).1.nodes =
          Function.update (dirTable d.nodes) (dirKey c.name) (some u.currEntry) ∧
        (novaAddDentry env d c ino slab update).1.dentries u.currEntry = novaUpdateNewDentry d c ino)) := by
  unfold novaAddDentry novaAppendDentry
  rw [if_neg (by omega)]
  rcases happend : c.append with ⟨e, _ | p⟩ | p
  · exact ⟨fun _ _ => rfl, Or.inl ⟨e, rfl, rfl⟩⟩
  · refine ⟨fun q hq => if_neg ?_, Or.inl ⟨e, rfl, rfl⟩⟩
    rintro rfl
    exact hq rfl
  · dsimp only
    let stored : NovaDir := { d.setDentry p (novaUpdateNewDentry d c ino) with lastDentry := p }
    have hother : ∀ q, AppendDentry.written (.appended p) ≠ some q → stored.dentries q = d.dentries q := by
      intro q hq
      refine if_neg ?_
      rintro rfl
      exact hq rfl
    rcases novaInsertDirTree_spec (d := stored) h c.name p hslab with
      ⟨tree, hins, hfree, hnodes, htable⟩ | ⟨e, hins⟩
    · rw [hins]
      exact ⟨hother, Or.inr ⟨_, rfl, rfl, hfree, hnodes, htable, if_pos rfl⟩⟩
    · rw [hins]
      exact ⟨hother, Or.inl ⟨e, rfl, rfl⟩⟩

theorem novaAddDentry_logTail {c : DentryCall} {ino : Nat} {slab : Option Nat} {update : NovaInodeUpdate} :
    (novaAddDentry env d c ino slab update).1.logTail = d.logTail := by
  unfold novaAddDentry novaAppendDentry
  split
  · rfl
  · rcases c.append with ⟨e, _ | p⟩ | p
    · rfl
    · rfl
    · dsimp only
      unfold novaInsertDirTree
      cases slab with
      | none => rfl
      | some addr =>
          dsimp only
          split <;> rfl

theorem novaAddDentry_ok_iff (h : DirNodesOk env d.nodes) (c : DentryCall) (ino : Nat) {slab : Option Nat}
    (update : NovaInodeUpdate) (hname : 0 < c.name.length)
    (hslab : ∀ addr, slab = some addr → addr ∉ d.nodes.map RangeNode.addr) :
    (∃ u, (novaAddDentry env d c ino slab update).2 = .ok u) ↔
      (∃ currP, c.append = .appended currP) ∧ slab ≠ none ∧ dirTable d.nodes (dirKey c.name) = none := by
  unfold novaAddDentry novaAppendDentry
  rw [if_neg (by omega)]
  rcases happend : c.append with ⟨e, _ | p⟩ | p
  · simp
  · simp
  · dsimp only
    let stored : NovaDir := { d.setDentry p (novaUpdateNewDentry d c ino) with lastDentry := p }
    rw [show d.nodes = stored.nodes from rfl, ← novaInsertDirTree_ok_iff (d := stored) h c.name p hslab]
    show (∃ u, Except.map _ (novaInsertDirTree env stored c.name p slab).2 = .ok u) ↔ _
    rcases novaInsertDirTree env stored c.name p slab with ⟨d', e | u⟩ <;> simp [Except.map]

/-- Whatever becomes of a removal, the node of the name is gone and the others are there. -/
theorem novaRemoveDentry_tree (h : DirNodesOk env d.nodes) (c : DentryCall) (rename verifies : Bool)
    (update : NovaInodeUpdate) (hname : 0 < c.name.length) :
    DirNodesOk env (novaRemoveDentry env d c rename verifies update).1.nodes ∧
      (∀ n ∈ (novaRemoveDentry env d c rename verifies update).1.nodes, n ∈ d.nodes) ∧
      dirTable (novaRemoveDentry env d c rename verifies update).1.nodes =
        Function.update (dirTable d.nodes) (dirKey c.name) none := by
  have hrest : (novaRemoveDentry env d c rename verifies update).1.rbTree =
      (novaRemoveDirTree env d c.name verifies).1.rbTree := by
    unfold novaRemoveDentry
    dsimp only
    rw [if_neg (by omega)]
    rcases novaRemoveDirTree env d c.name verifies with ⟨d', e | p⟩
    · rfl
    · dsimp only
      split
      · rfl
      · unfold novaAppendDentry
        rcases c.append with ⟨e, _ | w⟩ | w <;> rfl
  unfold NovaDir.nodes
  rw [hrest]
  rcases novaFindDirnode_spec h (dirKey c.name) with ⟨n, A, B, hfind, hAB, hkey, htable⟩ | ⟨res, hfind, htable⟩
  · obtain ⟨tree, hfst, hnodes, htable', -⟩ := novaRemoveDirTree_spec c.name h htable verifies
    rw [hfst]
    refine ⟨hnodes, fun m hm => ?_, htable'⟩
    have herase : tree = env.rb.erase (fun m => m.addr == n.addr) d.rbTree := by
      have htree : (novaRemoveDirTree env d c.name verifies).1.rbTree = tree := by rw [hfst]
      rw [← htree]
      unfold novaRemoveDirTree
      rw [show (bkdrHash c.name).toNat = dirKey c.name from rfl, hfind]
      dsimp only
      split
      · rfl
      · split <;> rfl
    dsimp only at hm
    rw [herase, RbOps.erase_toList] at hm
    exact (List.mem_filter.mp hm).1
  · have hmiss : (novaRemoveDirTree env d c.name verifies).1 = d := by
      unfold novaRemoveDirTree
      rw [show (bkdrHash c.name).toNat = dirKey c.name from rfl, hfind]
    rw [hmiss]
    refine ⟨h, fun _ hm => hm, ?_⟩
    rw [Function.update_eq_self_iff.mpr]
    exact htable.symm

/-- The removal gets past its checks and is logged. -/
def RemovalKept (d : NovaDir) (c : DentryCall) (rename verifies : Bool) (p : Nat) : Prop :=
  verifies = true ∧
    ((rename = false ∧ (d.dentries p).epochId = c.epochId) ∨ ∃ currP, c.append = .appended currP)

/-- The node of a name that is present goes in any case; the removal succeeds when its dentry
verifies and it can be logged. -/
theorem novaRemoveDentry_spec (h : DirNodesOk env d.nodes) (c : DentryCall) (rename verifies : Bool)
    (update : NovaInodeUpdate) (hname : 0 < c.name.length) {p : Nat}
    (hp : dirTable d.nodes (dirKey c.name) = some p) (hentry : (d.dentries p).name = c.name)
    (hino : (d.dentries p).ino ≠ 0) (hvalid : (d.dentries p).invalid = false) :
    DirNodesOk env (novaRemoveDentry env d c rename verifies update).1.nodes ∧
      dirTable (novaRemoveDentry env d c rename verifies update).1.nodes =
        Function.update (dirTable d.nodes) (dirKey c.name) none ∧
      (∀ q, q ≠ p → c.append.written ≠ some q →
        (novaRemoveDentry env d c rename verifies update).1.dentries q = d.dentries q) ∧
      ((∃ u, (novaRemoveDentry env d c rename verifies update).2 = .ok u) ↔
        RemovalKept d c rename verifies p) := by
  obtain ⟨tree, hfst, hnodes, htable, hsnd⟩ := novaRemoveDirTree_spec c.name h hp verifies
  have hmatch : novaCheckDentryMatch (d.dentries p) c.name = false := by
    rw [← hentry]
    exact novaCheckDentryMatch_self _
  have hres : novaRemoveDirTree env d c.name verifies =
      ({ d with rbTree := tree }, if verifies then .ok p else .error .einval) := by
    refine Prod.ext hfst ?_
    rw [hsnd]
    simp [hino, hvalid, hmatch]
  unfold novaRemoveDentry RemovalKept
  dsimp only
  rw [if_neg (by omega), hres]
  cases verifies with
  | false => exact ⟨hnodes, htable, fun _ _ _ => rfl, by simp⟩
  | true =>
      rw [if_pos rfl]
      dsimp only
      by_cases hplace : (!rename) = true ∧ (d.dentries p).epochId = c.epochId
      · rw [if_pos hplace]
        have hplace' : rename = false ∧ (d.dentries p).epochId = c.epochId := by simpa using hplace
        exact ⟨hnodes, htable, fun q hq _ => if_neg hq, fun _ => ⟨rfl, Or.inl hplace'⟩, fun _ => ⟨_, rfl⟩⟩
      · rw [if_neg hplace]
        unfold novaAppendDentry
        have hnot : ¬(rename = false ∧ (d.dentries p).epochId = c.epochId) := by simpa using hplace
        rcases happend : c.append with ⟨e, _ | w⟩ | w
        · exact ⟨hnodes, htable, fun _ _ _ => rfl, by simp [hnot]⟩
        · refine ⟨hnodes, htable, fun q _ hq => if_neg ?_, by simp [hnot]⟩
          rintro rfl
          exact hq rfl
        · refine ⟨hnodes, htable, fun q _ hq => if_neg ?_, by simp⟩
          rintro rfl
          exact hq rfl

end Operations

/-! ### Runs -/

/-- A directory, and the names a caller added to it and has not removed. -/
structure DirState where
  dir : NovaDir
  /-- the dentry last added under the name -/
  names : List UInt8 → Option Nat

/-- The calls. -/
inductive DirOp where
  | add (c : DentryCall) (ino : Nat) (slab : Option Nat) (update : NovaInodeUpdate)
  | remove (c : DentryCall) (rename verifies : Bool) (update : NovaInodeUpdate)

namespace DirOp

def call : DirOp → DentryCall
  | add c _ _ _ => c
  | remove c _ _ _ => c

/-- What the call makes of the directory, and what it returns. -/
def run (env : BallocEnv) (d : NovaDir) : DirOp → NovaDir × Except Errno NovaInodeUpdate
  | add c ino slab update => novaAddDentry env d c ino slab update
  | remove c rename verifies update => novaRemoveDentry env d c rename verifies update

/-- What the name maps to once the call succeeded. -/
def binding (u : NovaInodeUpdate) : DirOp → Option Nat
  | add _ _ _ _ => some u.currEntry
  | remove _ _ _ _ => none

/-- The directory after the call; the names change when it succeeds. -/
def apply (env : BallocEnv) (s : DirState) (op : DirOp) : DirState where
  dir := (op.run env s.dir).1
  names :=
    match (op.run env s.dir).2 with
    | .ok u => Function.update s.names op.call.name (op.binding u)
    | .error _ => s.names

/-- Nothing the call appends lands on a dentry the tree leads to, or on a node of it: the
callers move the tail past a dentry once its name is in the tree. -/
def Fresh (d : NovaDir) (op : DirOp) : Prop :=
  (∀ p, op.call.append.written = some p → ∀ n ∈ d.nodes, n.direntry ≠ p) ∧
    match op with
    | add _ _ slab _ => ∀ addr, slab = some addr → addr ∉ d.nodes.map RangeNode.addr
    | remove _ _ _ _ => True

/-- The callers add names that are absent, for an inode, and remove names that are present. -/
def Enabled (s : DirState) (op : DirOp) : Prop :=
  1 ≤ op.call.name.length ∧ op.call.name.length ≤ 255 ∧ op.Fresh s.dir ∧
    match op with
    | add c ino _ _ => s.names c.name = none ∧ ino ≠ 0
    | remove c _ _ _ => s.names c.name ≠ none

/-- A removal finds a dentry that verifies, and marks it in place or has room to log itself. -/
def Kept (s : DirState) : DirOp → Prop
  | add _ _ _ _ => True
  | remove c rename verifies _ => ∃ p, s.names c.name = some p ∧ RemovalKept s.dir c rename verifies p

end DirOp

/-- One call. -/
def DirStep (env : BallocEnv) (s : DirState) (op : DirOp) (t : DirState) : Prop :=
  op.Enabled s ∧ t = op.apply env s

/-- A directory that holds no name. -/
structure DirStart (s : DirState) : Prop where
  empty : s.dir.rbTree = .nil
  unnamed : ∀ name, s.names name = none

/-- What the calls keep. -/
structure DirInv (env : BallocEnv) (s : DirState) : Prop where
  nodes : DirNodesOk env s.dir.nodes
  keyed : Keyed dirKey s.names (dirTable s.dir.nodes)
  linked : ∀ name p, s.names name = some p → (s.dir.dentries p).name = name ∧
    (s.dir.dentries p).ino ≠ 0 ∧ (s.dir.dentries p).invalid = false

section Runs

variable {s t : DirState} {op : DirOp}

theorem DirStart.inv (h : DirStart s) : DirInv env s := by
  have hnodes : s.dir.nodes = [] := by
    unfold NovaDir.nodes
    rw [h.empty]
    rfl
  have hnames : s.names = fun _ => none := funext h.unnamed
  have htable : dirTable [] = fun _ => none := rfl
  refine ⟨?_, ?_, ?_⟩
  · rw [hnodes]
    exact ⟨List.Pairwise.nil, by simp, by simp⟩
  · rw [hnodes, hnames, htable]
    exact Keyed.empty
  · intro name p hp
    rw [h.unnamed] at hp
    cases hp

/-- A dentry that is linked is not where the call stores. -/
theorem DirInv.not_written (h : DirInv env s) (hfresh : op.Fresh s.dir) {name : List UInt8} {p : Nat}
    (hp : s.names name = some p) : op.call.append.written ≠ some p := by
  intro hw
  obtain ⟨n, hn, -, hnp⟩ := dirTable_mem (h.keyed.stored name p hp)
  exact hfresh.1 p hw n hn hnp

/-- Two names that are present lead to two dentries. -/
theorem DirInv.apart (h : DirInv env s) {name name' : List UInt8} {p p' : Nat} (hp : s.names name = some p)
    (hp' : s.names name' = some p') (hne : name ≠ name') : p ≠ p' := by
  rintro rfl
  exact hne ((h.linked name p hp).1.symm.trans (h.linked name' p hp').1)

/-- **A call keeps the invariant**, unless it is a removal that fails. -/
theorem DirInv.step (h : DirInv env s) (hen : op.Enabled s) (hkept : op.Kept s) : DirInv env (op.apply env s) := by
  obtain ⟨hpos, -, hfresh, hop⟩ := hen
  cases op with
  | add c ino slab update =>
      have hspec := novaAddDentry_spec h.nodes c ino update hpos hfresh.2
      obtain ⟨hother, ⟨e, herr, hnodes⟩ | ⟨u, hok, hw, hfree, hnodes, htable, hnew⟩⟩ := hspec
      · have hdir : ((DirOp.add c ino slab update).apply env s).dir.nodes = s.dir.nodes := hnodes
        have hnames : ((DirOp.add c ino slab update).apply env s).names = s.names := by
          simp [DirOp.apply, DirOp.run, herr]
        refine ⟨by rw [hdir]; exact h.nodes, by rw [hdir, hnames]; exact h.keyed, ?_⟩
        intro name p hp
        rw [hnames] at hp
        rw [show ((DirOp.add c ino slab update).apply env s).dir.dentries p = s.dir.dentries p from
          hother p (h.not_written hfresh hp)]
        exact h.linked name p hp
      · have hnames : ((DirOp.add c ino slab update).apply env s).names =
            Function.update s.names c.name (some u.currEntry) := by
          simp [DirOp.apply, DirOp.run, hok, DirOp.call, DirOp.binding]
        refine ⟨hnodes, ?_, ?_⟩
        · rw [hnames]
          exact htable ▸ h.keyed.insert hfree u.currEntry
        · intro name p hp
          rw [hnames] at hp
          by_cases hname : name = c.name
          · subst hname
            rw [Function.update_self, Option.some.injEq] at hp
            subst hp
            rw [show ((DirOp.add c ino slab update).apply env s).dir.dentries u.currEntry =
              novaUpdateNewDentry s.dir c ino from hnew]
            exact ⟨rfl, hop.2, rfl⟩
          · rw [Function.update_of_ne hname] at hp
            rw [show ((DirOp.add c ino slab update).apply env s).dir.dentries p = s.dir.dentries p from
              hother p (h.not_written hfresh hp)]
            exact h.linked name p hp
  | remove c rename verifies update =>
      obtain ⟨p, hp, hkept⟩ := hkept
      obtain ⟨hname, hino, hvalid⟩ := h.linked c.name p hp
      obtain ⟨hnodes, htable, hother, hok⟩ := novaRemoveDentry_spec h.nodes c rename verifies update hpos
        (h.keyed.stored c.name p hp) hname hino hvalid
      obtain ⟨u, hu⟩ := hok.mpr hkept
      have hnames : ((DirOp.remove c rename verifies update).apply env s).names =
          Function.update s.names c.name none := by
        simp [DirOp.apply, DirOp.run, hu, DirOp.call, DirOp.binding]
      refine ⟨hnodes, ?_, ?_⟩
      · rw [hnames]
        exact htable ▸ h.keyed.erase hop
      · intro name q hq
        rw [hnames] at hq
        have hne : name ≠ c.name := by
          rintro rfl
          simp at hq
        rw [Function.update_of_ne hne] at hq
        rw [show ((DirOp.remove c rename verifies update).apply env s).dir.dentries q = s.dir.dentries q from
          hother q (h.apart hq hp hne) (h.not_written hfresh hq)]
        exact h.linked name q hq

theorem DirInv.run (h : DirInv env s) (hrun : Runs (Guarded (fun s op => op.Kept s) (DirStep env)) s t) :
    DirInv env t :=
  hrun.invariant (fun _ _ _ hinv hstep => hstep.2.2 ▸ hinv.step hstep.2.1 hstep.1) h

/-- A call that fails leaves every lookup as it was, unless it is a removal that erased a node. -/
theorem DirInv.error_iff (h : DirInv env s) (hen : op.Enabled s) :
    (∀ e, (op.run env s.dir).2 = .error e →
        ∀ name, novaFindDentry env (op.run env s.dir).1 name = novaFindDentry env s.dir name) ↔ op.Kept s := by
  obtain ⟨hpos, -, hfresh, hop⟩ := hen
  cases op with
  | add c ino slab update =>
      refine iff_of_true ?_ trivial
      intro e he name
      obtain ⟨-, ⟨e', herr, hnodes⟩ | ⟨u, hok, -⟩⟩ := novaAddDentry_spec h.nodes c ino update hpos hfresh.2
      · have hsame : ((DirOp.add c ino slab update).run env s.dir).1.nodes = s.dir.nodes := hnodes
        rw [novaFindDentry_eq h.nodes, novaFindDentry_eq (by rw [hsame]; exact h.nodes), hsame]
      · exact absurd (hok.symm.trans he) (by simp)
  | remove c rename verifies update =>
      obtain ⟨p, hp⟩ := Option.ne_none_iff_exists'.mp hop
      obtain ⟨hname, hino, hvalid⟩ := h.linked c.name p hp
      obtain ⟨hnodes, htable, -, hok⟩ := novaRemoveDentry_spec h.nodes c rename verifies update hpos
        (h.keyed.stored c.name p hp) hname hino hvalid
      constructor
      · intro hsame
        refine ⟨p, hp, hok.mp ?_⟩
        cases hres : (novaRemoveDentry env s.dir c rename verifies update).2 with
        | ok u => exact ⟨u, rfl⟩
        | error e =>
            have heq := (novaFindDentry_eq hnodes c.name).symm.trans (hsame e hres c.name)
            rw [novaFindDentry_eq h.nodes, h.keyed.stored c.name p hp, htable, Function.update_self] at heq
            cases heq
      · rintro ⟨q, hq, hkept⟩ e he
        obtain rfl : q = p := by simpa [hp] using hq.symm
        obtain ⟨u, hu⟩ := hok.mpr hkept
        exact absurd (hu.symm.trans he) (by simp)

/--
**A lookup is right unless another name has the hash.**  After any calls among which no
removal failed once it had erased its node, a name reads the dentry last added under it, or
none, exactly when no other name that is present has its hash.  And a call that fails leaves
every lookup as it was exactly when it is not such a removal.
-/
theorem dirRun_lookup (hstart : DirStart s)
    (hrun : Runs (Guarded (fun s op => op.Kept s) (DirStep env)) s t) :
    (∀ name, novaFindDentry env t.dir name = t.names name ↔
        ∀ other, t.names other ≠ none → bkdrHash other = bkdrHash name → other = name) ∧
      ∀ op : DirOp, op.Enabled t →
        ((∀ e, (op.run env t.dir).2 = .error e →
            ∀ name, novaFindDentry env (op.run env t.dir).1 name = novaFindDentry env t.dir name) ↔
          op.Kept t) := by
  have hinv : DirInv env t := (DirStart.inv hstart).run hrun
  refine ⟨fun name => ?_, fun op hen => hinv.error_iff hen⟩
  rw [novaFindDentry_eq hinv.nodes, hinv.keyed.lookup_iff]
  have hkey : ∀ other, dirKey other = dirKey name ↔ bkdrHash other = bkdrHash name := fun _ => UInt64.toNat_inj
  simp only [hkey]

end Runs

/-! ### Two names -/

/-- A directory that was just made. -/
def emptyDir : DirState where
  dir := ⟨.nil, 0, 0, 0, fun _ => ⟨⟨[], 0, 0, 0, 0, 0, 0⟩, false⟩⟩
  names _ := none

/-- A call of the epoch 1. -/
def dirCall (name : List UInt8) (append : AppendDentry) : DentryCall := ⟨name, 0, 1, 2, 0, append⟩

/-- A name is added for inode 40, and its dentry goes to 4096. -/
def addName (name : List UInt8) : DirOp := .add (dirCall name (.appended 4096)) 40 (some 1) ⟨0, 0, none, none⟩

def plainDirEnv : BallocEnv := ⟨RbOps.plain _, true⟩

theorem addName_enabled {name : List UInt8} (h : 1 ≤ name.length) (h' : name.length ≤ 255) :
    (addName name).Enabled emptyDir :=
  ⟨h, h', ⟨nofun, nofun⟩, rfl, by decide⟩

theorem dirRun_lookup_addName :
    (novaFindDentry plainDirEnv ((addName [98, 33]).apply plainDirEnv emptyDir).dir [97, 164] =
        ((addName [98, 33]).apply plainDirEnv emptyDir).names [97, 164] ↔
      ∀ other, ((addName [98, 33]).apply plainDirEnv emptyDir).names other ≠ none →
        bkdrHash other = bkdrHash [97, 164] → other = [97, 164]) :=
  (dirRun_lookup ⟨rfl, fun _ => rfl⟩
    (Runs.single (a := addName [98, 33]) ⟨trivial, addName_enabled (by decide) (by decide), rfl⟩)).1 [97, 164]

/-- A directory with the one name `b!` finds its dentry under a name nobody added.  And when
`b!` is removed in a later epoch and the log has no room, the error leaves it unfindable. -/
theorem novaFindDentry_collides :
    DirStart emptyDir ∧ DirStep plainDirEnv emptyDir (addName [98, 33]) ((addName [98, 33]).apply plainDirEnv emptyDir) ∧
      ((addName [98, 33]).apply plainDirEnv emptyDir).names [97, 164] = none ∧
      novaFindDentry plainDirEnv ((addName [98, 33]).apply plainDirEnv emptyDir).dir [97, 164] = some 4096 ∧
      ((DirOp.remove { dirCall [98, 33] (.refused .enospc none) with epochId := 2 } false true ⟨0, 0, none, none⟩).run
          plainDirEnv ((addName [98, 33]).apply plainDirEnv emptyDir).dir).2 = .error .enospc ∧
      novaFindDentry plainDirEnv ((addName [98, 33]).apply plainDirEnv emptyDir).dir [98, 33] = some 4096 ∧
      novaFindDentry plainDirEnv
        ((DirOp.remove { dirCall [98, 33] (.refused .enospc none) with epochId := 2 } false true ⟨0, 0, none, none⟩).run
          plainDirEnv ((addName [98, 33]).apply plainDirEnv emptyDir).dir).1 [98, 33] = none :=
  ⟨⟨rfl, fun _ => rfl⟩, ⟨addName_enabled (by decide) (by decide), rfl⟩, by decide +kernel, by decide +kernel,
    by decide +kernel, by decide +kernel, by decide +kernel⟩

end Parfs
