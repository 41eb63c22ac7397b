/-
Search trees read through their in-order sequence.

A kernel red-black tree is a binary tree that callers descend themselves and that
`rb_insert_color` and `rb_erase` rebalance.  Callers rely on one thing about the
rebalancing: it never changes the in-order sequence.  So the shape is kept here,
because a caller that descends sees it, and everything proved is about `toList`.

The descent compares a key with one node at a time.  `Cut` is what makes it
meaningful: along the in-order sequence the answers go from "beyond this node" to
"before this node", with at most one match in between.
-/
import Mathlib.Data.List.Basic
import Mathlib.Data.List.Pairwise

namespace Parfs.Lib

/-- A binary tree; colours and parent links are the rebalancing's business. -/
inductive RbTree (α : Type) where
  | nil
  | node (l : RbTree α) (x : α) (r : RbTree α)
  deriving Repr, DecidableEq

namespace RbTree

variable {α β : Type} {cmp : α → Ordering}

/-- The in-order sequence. -/
def toList : RbTree α → List α
  | nil => []
  | node l x r => l.toList ++ x :: r.toList

@[simp] theorem toList_nil : (nil : RbTree α).toList = [] := rfl

@[simp] theorem toList_node (l : RbTree α) (x : α) (r : RbTree α) :
    (node l x r).toList = l.toList ++ x :: r.toList := rfl

/-- Every node rewritten in place: the shape stays. -/
def map (f : α → β) : RbTree α → RbTree β
  | nil => nil
  | node l x r => node (l.map f) (f x) (r.map f)

@[simp] theorem toList_map (f : α → β) (t : RbTree α) : (t.map f).toList = t.toList.map f := by
  induction t with
  | nil => rfl
  | node l x r ihl ihr => simp [map, ihl, ihr]

/-- A tree holding `l`, all to the right. -/
def ofList : List α → RbTree α
  | [] => nil
  | x :: xs => node nil x (ofList xs)

@[simp] theorem toList_ofList (l : List α) : (ofList l).toList = l := by
  induction l with
  | nil => rfl
  | cons x xs ih => simp [ofList, ih]

/-! ### Descending -/

/-- Walk down from the root: whether a node matched, and the last node visited. -/
def descend (cmp : α → Ordering) : Option α → RbTree α → Bool × Option α
  | curr, nil => (false, curr)
  | _, node l x r =>
    match cmp x with
    | .lt => descend cmp (some x) l
    | .gt => descend cmp (some x) r
    | .eq => (true, some x)

/-- Hang `y` where the walk runs off the tree; `none` when a node matches. -/
def link (cmp : α → Ordering) (y : α) : RbTree α → Option (RbTree α)
  | nil => some (node nil y nil)
  | node l x r =>
    match cmp x with
    | .lt => (link cmp y l).map (node · x r)
    | .gt => (link cmp y r).map (node l x ·)
    | .eq => none

/-- The comparison splits the sequence: beyond a first part, before a last part. -/
def Cut (cmp : α → Ordering) (l : List α) : Prop :=
  l.Pairwise fun a b => cmp a = .gt ∨ cmp b = .lt

theorem Cut.node_parts {l r : RbTree α} {x : α} (h : Cut cmp (node l x r).toList) :
    Cut cmp l.toList ∧ Cut cmp r.toList ∧
      (cmp x ≠ .gt → ∀ b ∈ r.toList, cmp b = .lt) ∧
      (cmp x ≠ .lt → ∀ a ∈ l.toList, cmp a = .gt) := by
  unfold Cut at h
  rw [toList_node, List.pairwise_append, List.pairwise_cons] at h
  obtain ⟨hl, ⟨hx, hr⟩, hcross⟩ := h
  refine ⟨hl, hr, ?_, ?_⟩
  · intro hne b hb
    exact (hx b hb).resolve_left hne
  · intro hne a ha
    exact (hcross a ha x (by simp)).resolve_right hne

/-- A walk that matched stops at a matching node of the tree. -/
theorem descend_hit (t : RbTree α) :
    ∀ {curr res : Option α}, descend cmp curr t = (true, res) →
      ∃ a, res = some a ∧ a ∈ t.toList ∧ cmp a = .eq := by
  induction t with
  | nil => intro curr res h; simp [descend] at h
  | node l x r ihl ihr =>
      intro curr res h
      rw [descend] at h
      split at h
      · obtain ⟨a, ha, hmem, heq⟩ := ihl h
        exact ⟨a, ha, by simp [hmem], heq⟩
      · obtain ⟨a, ha, hmem, heq⟩ := ihr h
        exact ⟨a, ha, by simp [hmem], heq⟩
      · rename_i heq
        simp only [Prod.mk.injEq, true_and] at h
        exact ⟨x, h.symm, by simp, heq⟩

/--
A walk that ran off the tree split the sequence into what lies below the key and
what lies above it, and stopped at one of the two nodes next to the split.
-/
theorem descend_miss (t : RbTree α) (hcut : Cut cmp t.toList) :
    ∀ {curr res : Option α}, descend cmp curr t = (false, res) →
      ∃ A B, t.toList = A ++ B ∧ (∀ a ∈ A, cmp a = .gt) ∧ (∀ b ∈ B, cmp b = .lt) ∧
        ((t.toList = [] ∧ res = curr) ∨
          ∃ a, res = some a ∧ (A.getLast? = some a ∨ B.head? = some a)) := by
  induction t with
  | nil =>
      intro curr res h
      simp only [descend, Prod.mk.injEq, true_and] at h
      exact ⟨[], [], by simp, by simp, by simp, Or.inl ⟨rfl, h.symm⟩⟩
  | node l x r ihl ihr =>
      intro curr res h
      obtain ⟨hl, hr, hright, hleft⟩ := hcut.node_parts
      rw [descend] at h
      split at h
      · rename_i hx
        obtain ⟨A, B, hAB, hA, hB, hres⟩ := ihl hl h
        refine ⟨A, B ++ x :: r.toList, by simp [hAB], hA, ?_, Or.inr ?_⟩
        · intro b hb
          rcases List.mem_append.mp hb with hb | hb
          · exact hB b hb
          · rcases List.mem_cons.mp hb with rfl | hb
            · exact hx
            · exact hright (by simp [hx]) b hb
        · rcases hres with ⟨hempty, hres⟩ | ⟨a, ha, hlast | hhead⟩
          · have : B = [] := by rw [hempty] at hAB; simp_all
            exact ⟨x, hres, Or.inr (by simp [this])⟩
          · exact ⟨a, ha, Or.inl hlast⟩
          · exact ⟨a, ha, Or.inr (by simp [hhead])⟩
      · rename_i hx
        obtain ⟨A, B, hAB, hA, hB, hres⟩ := ihr hr h
        refine ⟨l.toList ++ x :: A, B, by simp [hAB], ?_, hB, Or.inr ?_⟩
        · intro a ha
          rcases List.mem_append.mp ha with ha | ha
          · exact hleft (by simp [hx]) a ha
          · rcases List.mem_cons.mp ha with rfl | ha
            · exact hx
            · exact hA a ha
        · rcases hres with ⟨hempty, hres⟩ | ⟨a, ha, hlast | hhead⟩
          · have : A = [] := by rw [hempty] at hAB; simp_all
            exact ⟨x, hres, Or.inl (by simp [this])⟩
          · exact ⟨a, ha, Or.inl (by simp [List.getLast?_append, List.getLast?_cons, hlast])⟩
          · exact ⟨a, ha, Or.inr hhead⟩
      · simp at h

/-- Linking fails only at a node that matches. -/
theorem link_none (y : α) (t : RbTree α) (h : link cmp y t = none) :
    ∃ a ∈ t.toList, cmp a = .eq := by
  induction t with
  | nil => simp [link] at h
  | node l x r ihl ihr =>
      rw [link] at h
      split at h
      · obtain ⟨a, hmem, heq⟩ := ihl (by simpa using h)
        exact ⟨a, by simp [hmem], heq⟩
      · obtain ⟨a, hmem, heq⟩ := ihr (by simpa using h)
        exact ⟨a, by simp [hmem], heq⟩
      · rename_i heq
        exact ⟨x, by simp, heq⟩

/-- Linking puts the new node at the split. -/
theorem link_some (y : α) (t : RbTree α) (hcut : Cut cmp t.toList) :
    ∀ {t' : RbTree α}, link cmp y t = some t' →
      ∃ A B, t.toList = A ++ B ∧ (∀ a ∈ A, cmp a = .gt) ∧ (∀ b ∈ B, cmp b = .lt) ∧
        t'.toList = A ++ y :: B := by
  induction t with
  | nil =>
      intro t' h
      simp only [link, Option.some.injEq] at h
      subst h
      exact ⟨[], [], by simp, by simp, by simp, by simp⟩
  | node l x r ihl ihr =>
      intro t' h
      obtain ⟨hl, hr, hright, hleft⟩ := hcut.node_parts
      rw [link] at h
      split at h
      · rename_i hx
        obtain ⟨l', hl', rfl⟩ := Option.map_eq_some_iff.mp h
        obtain ⟨A, B, hAB, hA, hB, hlist⟩ := ihl hl hl'
        refine ⟨A, B ++ x :: r.toList, by simp [hAB], hA, ?_, by simp [hlist]⟩
        intro b hb
        rcases List.mem_append.mp hb with hb | hb
        · exact hB b hb
        · rcases List.mem_cons.mp hb with rfl | hb
          · exact hx
          · exact hright (by simp [hx]) b hb
      · rename_i hx
        obtain ⟨r', hr', rfl⟩ := Option.map_eq_some_iff.mp h
        obtain ⟨A, B, hAB, hA, hB, hlist⟩ := ihr hr hr'
        refine ⟨l.toList ++ x :: A, B, by simp [hAB], ?_, hB, by simp [hlist]⟩
        intro a ha
        rcases List.mem_append.mp ha with ha | ha
        · exact hleft (by simp [hx]) a ha
        · rcases List.mem_cons.mp ha with rfl | ha
          · exact hx
          · exact hA a ha
      · simp at h

/-- A split of a sequence by a comparison is unique. -/
theorem split_unique {A B A' B' : List α} (h : A ++ B = A' ++ B')
    (hA : ∀ a ∈ A, cmp a = .gt) (hB : ∀ b ∈ B, cmp b = .lt)
    (hA' : ∀ a ∈ A', cmp a = .gt) (hB' : ∀ b ∈ B', cmp b = .lt) : A = A' ∧ B = B' := by
  rcases List.append_eq_append_iff.mp h with ⟨C, rfl, rfl⟩ | ⟨C, rfl, rfl⟩
  · cases C with
    | nil => simp
    | cons c C =>
        have hgt := hA' c (by simp)
        rw [hB c (by simp)] at hgt
        cases hgt
  · cases C with
    | nil => simp
    | cons c C =>
        have hgt := hA c (by simp)
        rw [hB' c (by simp)] at hgt
        cases hgt

end RbTree

/-! ### What the rebalancing promises -/

/-- `rb_insert_color` and `rb_erase`, with what a caller relies on. -/
structure RbOps (α : Type) where
  /-- Rebalance after a node was linked. -/
  insertColor : RbTree α → RbTree α
  /-- Unlink the nodes `p` picks out (a caller picks one) and rebalance. -/
  erase : (α → Bool) → RbTree α → RbTree α
  insertColor_toList : ∀ t, (insertColor t).toList = t.toList
  erase_toList : ∀ p t, (erase p t).toList = t.toList.filter fun x => !p x

attribute [simp] RbOps.insertColor_toList RbOps.erase_toList

/-- The operations without any rebalancing. -/
def RbOps.plain (α : Type) : RbOps α where
  insertColor t := t
  erase p t := RbTree.ofList (t.toList.filter fun x => !p x)
  insertColor_toList _ := rfl
  erase_toList _ _ := by simp

end Parfs.Lib
