/-
Sparse arrays.

A radix tree is an array of which finitely many slots are filled.  What is in it is the
multiset of the filled slots, and storing to one slot exchanges one member for another: that
is all an account of what goes in and out of a tree needs.
-/
import Mathlib.Data.Finset.Card
import Mathlib.Data.Finset.Range
import Mathlib.Data.Multiset.AddSub
import Mathlib.Algebra.Order.Group.Multiset
import Mathlib.Tactic.Abel

namespace Parfs.Lib

/-- Slots from `size` on are empty. -/
structure Radix (α : Type) where
  slot : Nat → Option α
  size : Nat
  bound : ∀ p, size ≤ p → slot p = none

namespace Radix

variable {α : Type} {t : Radix α} {p q : Nat} {x : α} {f g : Nat → Option α}

def empty (α : Type) : Radix α := ⟨fun _ => none, 0, fun _ _ => rfl⟩

/-- Fill a slot, whether or not it was filled. -/
def set (t : Radix α) (p : Nat) (x : α) : Radix α where
  slot := Function.update t.slot p (some x)
  size := max t.size (p + 1)
  bound := by
    intro q hq
    rw [Function.update_of_ne (by omega)]
    exact t.bound q (by omega)

def erase (t : Radix α) (p : Nat) : Radix α where
  slot := Function.update t.slot p none
  size := t.size
  bound := by
    intro q hq
    by_cases h : q = p
    · rw [h, Function.update_self]
    · rw [Function.update_of_ne h]
      exact t.bound q hq

/-- The first filled of `n` slots from `p` on. -/
def firstOf (f : Nat → Option α) : Nat → Nat → Option α
  | 0, _ => none
  | n + 1, p =>
    match f p with
    | some x => some x
    | none => firstOf f n (p + 1)

/-- The first filled slot from `p` on. -/
def next (t : Radix α) (p : Nat) : Option α := firstOf t.slot (t.size - p) p

@[simp] theorem set_slot_self : (t.set p x).slot p = some x := Function.update_self ..

@[simp] theorem set_slot_of_ne (h : q ≠ p) : (t.set p x).slot q = t.slot q := Function.update_of_ne h ..

@[simp] theorem erase_slot_self : (t.erase p).slot p = none := Function.update_self ..

@[simp] theorem erase_slot_of_ne (h : q ≠ p) : (t.erase p).slot q = t.slot q := Function.update_of_ne h ..

theorem lt_size (h : t.slot p = some x) : p < t.size := by
  by_contra hge
  rw [t.bound p (by omega)] at h
  cases h

theorem firstOf_some {n : Nat} (h : firstOf f n p = some x) :
    ∃ q, p ≤ q ∧ f q = some x ∧ ∀ r, p ≤ r → r < q → f r = none := by
  induction n generalizing p with
  | zero => cases h
  | succ n ih =>
      unfold firstOf at h
      cases hp : f p with
      | some y =>
          rw [hp] at h
          exact ⟨p, le_refl p, hp.trans h, fun r h1 h2 => by omega⟩
      | none =>
          rw [hp] at h
          obtain ⟨q, hq, hx, hfirst⟩ := ih h
          refine ⟨q, by omega, hx, fun r h1 h2 => ?_⟩
          rcases Nat.eq_or_lt_of_le h1 with rfl | hlt
          · exact hp
          · exact hfirst r hlt h2

theorem firstOf_none {n : Nat} (h : firstOf f n p = none) : ∀ q, p ≤ q → q < p + n → f q = none := by
  induction n generalizing p with
  | zero =>
      intro q h1 h2
      omega
  | succ n ih =>
      intro q h1 h2
      unfold firstOf at h
      cases hp : f p with
      | some y =>
          rw [hp] at h
          cases h
      | none =>
          rw [hp] at h
          rcases Nat.eq_or_lt_of_le h1 with rfl | hlt
          · exact hp
          · exact ih h q hlt (by omega)

/-- What the first filled slot is. -/
theorem next_some (h : t.next p = some x) :
    ∃ q, p ≤ q ∧ t.slot q = some x ∧ ∀ r, p ≤ r → r < q → t.slot r = none := firstOf_some h

theorem next_none (h : t.next p = none) (hq : p ≤ q) : t.slot q = none := by
  by_cases hlt : q < t.size
  · exact firstOf_none h q hq (by omega)
  · exact t.bound q (by omega)

/-! ### Accounts -/

/-- A slot's member, with its place. -/
def member (o : Option α) (p : Nat) : Multiset (α × Nat) :=
  match o with
  | some x => {(x, p)}
  | none => 0

@[simp] theorem member_some : member (some x) p = {(x, p)} := rfl

@[simp] theorem member_none : member (none : Option α) p = 0 := rfl

/-- The members in the slots in front of `n`. -/
def upTo (f : Nat → Option α) : Nat → Multiset (α × Nat)
  | 0 => 0
  | n + 1 => upTo f n + member (f n) n

/-- The members of all slots. -/
def members (t : Radix α) : Multiset (α × Nat) := upTo t.slot t.size

theorem upTo_congr {n : Nat} (h : ∀ p < n, f p = g p) : upTo f n = upTo g n := by
  induction n with
  | zero => rfl
  | succ n ih => rw [upTo, upTo, ih fun p hp => h p (by omega), h n (Nat.lt_succ_self n)]

theorem upTo_stable {n m : Nat} (h : ∀ p, n ≤ p → f p = none) (hnm : n ≤ m) : upTo f m = upTo f n := by
  induction m with
  | zero => rw [Nat.le_zero.mp hnm]
  | succ m ih =>
      rcases Nat.lt_or_eq_of_le hnm with hlt | rfl
      · rw [upTo, ih (by omega), h m (by omega), member_none, add_zero]
      · rfl

theorem upTo_update {n : Nat} {o : Option α} (hp : p < n) :
    upTo (Function.update f p o) n + member (f p) p = upTo f n + member o p := by
  induction n with
  | zero => omega
  | succ n ih =>
      rcases Nat.lt_or_eq_of_le (Nat.lt_succ_iff.mp hp) with hlt | rfl
      · rw [upTo, upTo, Function.update_of_ne (by omega), add_right_comm, ih hlt, add_right_comm]
      · have hbelow : upTo (Function.update f p o) p = upTo f p :=
          upTo_congr fun q hq => Function.update_of_ne (by omega) ..
        rw [upTo, upTo, hbelow, Function.update_self, add_right_comm]

/-- **Filling a slot** exchanges its member. -/
theorem members_set : (t.set p x).members + member (t.slot p) p = t.members + {(x, p)} := by
  have hold : upTo t.slot (max t.size (p + 1)) = upTo t.slot t.size :=
    upTo_stable t.bound (Nat.le_max_left _ _)
  unfold members
  show upTo (Function.update t.slot p (some x)) (max t.size (p + 1)) + _ = _
  rw [upTo_update (by omega), hold, member_some]

/-- **Emptying a slot** takes its member out. -/
theorem members_erase : (t.erase p).members + member (t.slot p) p = t.members := by
  unfold members
  show upTo (Function.update t.slot p none) t.size + _ = _
  by_cases hp : p < t.size
  · rw [upTo_update hp, member_none, add_zero]
  · rw [t.bound p (by omega), member_none, add_zero]
    exact upTo_congr fun q hq => Function.update_of_ne (by omega) ..

theorem mem_upTo {n : Nat} : (x, p) ∈ upTo f n ↔ p < n ∧ f p = some x := by
  induction n with
  | zero => simp [upTo]
  | succ n ih =>
      rw [upTo, Multiset.mem_add, ih]
      constructor
      · rintro (⟨hlt, hx⟩ | hmem)
        · exact ⟨by omega, hx⟩
        · cases hn : f n with
          | none =>
              rw [hn] at hmem
              simp at hmem
          | some y =>
              rw [hn, member_some, Multiset.mem_singleton, Prod.mk.injEq] at hmem
              obtain ⟨rfl, rfl⟩ := hmem
              exact ⟨by omega, hn⟩
      · rintro ⟨hlt, hx⟩
        rcases Nat.lt_or_eq_of_le (Nat.lt_succ_iff.mp hlt) with hlt | rfl
        · exact Or.inl ⟨hlt, hx⟩
        · rw [hx]
          simp

/-- The members are the filled slots. -/
theorem mem_members : (x, p) ∈ t.members ↔ t.slot p = some x :=
  ⟨fun h => (mem_upTo.mp h).2, fun h => mem_upTo.mpr ⟨lt_size h, h⟩⟩

theorem nodup_upTo (f : Nat → Option α) (n : Nat) : (upTo f n).Nodup := by
  induction n with
  | zero => exact Multiset.nodup_zero
  | succ n ih =>
      rw [upTo]
      cases hn : f n with
      | none => simpa using ih
      | some y =>
          rw [member_some, add_comm, Multiset.singleton_add]
          refine Multiset.nodup_cons.mpr ⟨fun hmem => ?_, ih⟩
          have := (mem_upTo.mp hmem).1
          omega

theorem nodup_members : t.members.Nodup := nodup_upTo _ _

/-- The filled slots. -/
def filled (t : Radix α) : Finset Nat := (Finset.range t.size).filter fun p => (t.slot p).isSome

theorem mem_filled : p ∈ t.filled ↔ t.slot p ≠ none := by
  unfold filled
  rw [Finset.mem_filter, Finset.mem_range, Option.isSome_iff_ne_none]
  refine ⟨fun h => h.2, fun h => ⟨?_, h⟩⟩
  by_contra hge
  exact h (t.bound p (by omega))

/-- Each filled slot has one member. -/
theorem card_members : t.members.card = t.filled.card := by
  have hmap : t.members.map Prod.snd = t.filled.val := by
    refine (Multiset.Nodup.ext ?_ t.filled.nodup).mpr fun q => ?_
    · refine t.nodup_members.map_on fun x hx y hy hxy => ?_
      have hx := mem_members.mp hx
      have hy := mem_members.mp hy
      rw [hxy, hy] at hx
      exact Prod.ext (Option.some.inj hx).symm hxy
    · rw [Multiset.mem_map, ← Finset.mem_def, mem_filled, Option.ne_none_iff_exists']
      constructor
      · intro h
        obtain ⟨x, hx, rfl⟩ := h
        exact ⟨x.1, mem_members.mp hx⟩
      · intro h
        obtain ⟨e, he⟩ := h
        exact ⟨(e, q), mem_members.mpr he, rfl⟩
  rw [← Multiset.card_map Prod.snd, hmap]
  rfl

end Radix

end Parfs.Lib
