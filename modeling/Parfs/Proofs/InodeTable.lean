/-
The slots of the inode tables.

A chain of superpages is followed from the head of its table, and only ever made longer: a superpage
is put where there was none.  It was granted for that and is zero, so it is the last one, and it has
its place in one chain only.  What a number is looked up by is its place, and a place keeps its
superpage.

The number of superpages to pass is kept in 32 bits, and a number may have more before it.
-/
import Parfs.InodeTable
import Parfs.Lib.Run
import Parfs.Proofs.InodeMap

namespace Parfs

open Lib

/-- What the allocator promises: a superpage or an error, behind the blocks that are reserved, and none
twice. -/
structure TableEnv.Grants (env : TableEnv) : Prop where
  code : ∀ n, (env.grants n).ret = 1 ∨ (env.grants n).ret < 0
  head : ∀ n, (env.grants n).ret = 1 → 4096 * 64 ≤ env.block n
  apart : ∀ m n, m ≠ n → (env.grants m).ret = 1 → (env.grants n).ret = 1 →
    env.block m + superpageSize ≤ env.block n ∨ env.block n + superpageSize ≤ env.block m

namespace InodeTables

/-- The superpage at a place of a chain, or 0. -/
def superpageAt (s : InodeTables) (version cpu : Nat) : Nat → Nat
  | 0 => s.words (novaGetInodeTable version cpu)
  | k + 1 => if s.superpageAt version cpu k = 0 then 0 else s.words (s.superpageAt version cpu k + (superpageSize - 8))

/-- Where it is stored which superpage is at a place. -/
def linkAddr (s : InodeTables) (version cpu : Nat) : Nat → Nat
  | 0 => novaGetInodeTable version cpu
  | k + 1 => s.superpageAt version cpu k + (superpageSize - 8)

/-- Superpages of the chains were granted, and each has one place. -/
structure Chained (env : TableEnv) (s : InodeTables) : Prop where
  granted : ∀ v < 2, ∀ cpu < env.cpus, ∀ k, s.superpageAt v cpu k ≠ 0 →
    ∃ n < s.calls, (env.grants n).ret = 1 ∧ s.superpageAt v cpu k = env.block n
  once : ∀ v < 2, ∀ cpu < env.cpus, ∀ k, ∀ v' < 2, ∀ cpu' < env.cpus, ∀ k', s.superpageAt v cpu k ≠ 0 →
    s.superpageAt v cpu k = s.superpageAt v' cpu' k' → v = v' ∧ cpu = cpu' ∧ k = k'

/-- Places that have a superpage keep it. -/
def Extends (env : TableEnv) (s s' : InodeTables) : Prop :=
  ∀ v < 2, ∀ cpu < env.cpus, ∀ k, s.superpageAt v cpu k ≠ 0 → s'.superpageAt v cpu k = s.superpageAt v cpu k

section

variable {env : TableEnv} {s s' s'' : InodeTables} {v cpu k v' cpu' k' : Nat}

theorem Extends.refl (s : InodeTables) : Extends env s s := fun _ _ _ _ _ _ => rfl

theorem Extends.trans (h : Extends env s s') (h' : Extends env s' s'') : Extends env s s'' := by
  intro v hv cpu hcpu k hk
  have heq := h v hv cpu hcpu k hk
  rw [h' v hv cpu hcpu k (by rw [heq]; exact hk), heq]

theorem superpageAt_succ (h : s.superpageAt v cpu k ≠ 0) :
    s.superpageAt v cpu (k + 1) = s.words (s.linkAddr v cpu (k + 1)) := if_neg h

theorem superpageAt_zero_succ (h : s.superpageAt v cpu k = 0) : s.superpageAt v cpu (k + 1) = 0 := if_pos h

/-- A chain has no gap. -/
theorem superpageAt_before (h : s.superpageAt v cpu (k + k') ≠ 0) : s.superpageAt v cpu k ≠ 0 := by
  induction k' with
  | zero => exact h
  | succ k' ih => exact ih fun hzero => h (superpageAt_zero_succ hzero)

theorem superpageAt_behind (h : s.superpageAt v cpu k = 0) : s.superpageAt v cpu (k + k') = 0 := by
  by_contra hne
  exact superpageAt_before hne h

/-- The heads of the tables are in the blocks that are reserved. -/
theorem novaGetInodeTable_lt (v : Nat) (env : TableEnv) (hcpu : cpu < env.cpus) : novaGetInodeTable v cpu + 8 ≤ 4096 * 64 := by
  have hmax := env.cpus_le
  unfold maxCpus at hmax
  unfold novaGetInodeTable
  split <;> omega

theorem novaGetInodeTable_inj (env : TableEnv) (hv : v < 2) (hv' : v' < 2) (hcpu : cpu < env.cpus) (hcpu' : cpu' < env.cpus)
    (h : novaGetInodeTable v cpu = novaGetInodeTable v' cpu') : v = v' ∧ cpu = cpu' := by
  have hmax := env.cpus_le
  unfold maxCpus at hmax
  unfold novaGetInodeTable at h
  split at h <;> split at h <;> omega

theorem Chained.head (h : s.Chained env) (hgrants : env.Grants) (hv : v < 2) (hcpu : cpu < env.cpus)
    (hk : s.superpageAt v cpu k ≠ 0) : 4096 * 64 ≤ s.superpageAt v cpu k := by
  obtain ⟨n, -, hret, heq⟩ := h.granted v hv cpu hcpu k hk
  rw [heq]
  exact hgrants.head n hret

/-- A superpage that is granted is apart from those there are. -/
theorem Chained.apart_new (h : s.Chained env) (hgrants : env.Grants) (hv : v < 2) (hcpu : cpu < env.cpus)
    (hk : s.superpageAt v cpu k ≠ 0) (hret : (env.grants s.calls).ret = 1) :
    s.superpageAt v cpu k + superpageSize ≤ env.block s.calls ∨
      env.block s.calls + superpageSize ≤ s.superpageAt v cpu k := by
  obtain ⟨n, hn, hretn, heq⟩ := h.granted v hv cpu hcpu k hk
  rw [heq]
  exact hgrants.apart n s.calls (Nat.ne_of_lt hn) hretn hret

/-- Superpages at different places are apart. -/
theorem Chained.apart (h : s.Chained env) (hgrants : env.Grants) (hv : v < 2) (hcpu : cpu < env.cpus) (hv' : v' < 2)
    (hcpu' : cpu' < env.cpus) (hk : s.superpageAt v cpu k ≠ 0) (hk' : s.superpageAt v' cpu' k' ≠ 0)
    (hne : ¬ (v = v' ∧ cpu = cpu' ∧ k = k')) :
    s.superpageAt v cpu k + superpageSize ≤ s.superpageAt v' cpu' k' ∨
      s.superpageAt v' cpu' k' + superpageSize ≤ s.superpageAt v cpu k := by
  obtain ⟨n, -, hret, heq⟩ := h.granted v hv cpu hcpu k hk
  obtain ⟨n', -, hret', heq'⟩ := h.granted v' hv' cpu' hcpu' k' hk'
  have hnn : n ≠ n' := by
    intro hnn
    exact hne (h.once v hv cpu hcpu k v' hv' cpu' hcpu' k' hk (by rw [heq, heq', hnn]))
  rw [heq, heq']
  exact hgrants.apart n n' hnn hret hret'

/-! ### A superpage more -/

/-- A superpage is put at a place. -/
def link (env : TableEnv) (s : InodeTables) (version cpu k : Nat) : InodeTables :=
  (s.newSuperpage env).1.setWord (s.linkAddr version cpu k) (env.block s.calls)

theorem link_words {a : Nat} : (s.link env v cpu k).words a =
    if a = s.linkAddr v cpu k then env.block s.calls
    else if (env.grants s.calls).ret = 1 ∧ env.block s.calls ≤ a ∧ a < env.block s.calls + superpageSize then 0
    else s.words a := Function.update_apply ..

/-- It is there after it, and everything else as before. -/
theorem link_superpageAt (h : s.Chained env) (hgrants : env.Grants) (hv : v < 2) (hcpu : cpu < env.cpus)
    (hnone : s.superpageAt v cpu k = 0) (hbefore : ∀ j, k = j + 1 → s.superpageAt v cpu j ≠ 0)
    (hret : (env.grants s.calls).ret = 1) (hv' : v' < 2) (hcpu' : cpu' < env.cpus) (k' : Nat) :
    (s.link env v cpu k).superpageAt v' cpu' k' =
      if v' = v ∧ cpu' = cpu ∧ k' = k then env.block s.calls else s.superpageAt v' cpu' k' := by
  have hhead := hgrants.head _ hret
  have hsize : superpageSize = 0x200000 := rfl
  induction k' with
  | zero =>
      have htable := novaGetInodeTable_lt v' env hcpu'
      show (s.link env v cpu k).words (novaGetInodeTable v' cpu') = _
      rw [link_words]
      cases k with
      | zero =>
          by_cases hsame : novaGetInodeTable v' cpu' = novaGetInodeTable v cpu
          · obtain ⟨rfl, rfl⟩ := novaGetInodeTable_inj env hv' hv hcpu' hcpu hsame
            rw [if_pos (show novaGetInodeTable v' cpu' = s.linkAddr v' cpu' 0 from rfl), if_pos ⟨rfl, rfl, rfl⟩]
          · rw [if_neg (show ¬ novaGetInodeTable v' cpu' = s.linkAddr v cpu 0 from hsame), if_neg (by omega), if_neg]
            · rfl
            · intro hall
              exact hsame (by rw [hall.1, hall.2.1])
      | succ k =>
          have hprev := h.head hgrants hv hcpu (hbefore k rfl)
          have hne : ¬ novaGetInodeTable v' cpu' = s.linkAddr v cpu (k + 1) := by
            show ¬ _ = s.superpageAt v cpu k + (superpageSize - 8)
            omega
          rw [if_neg hne, if_neg (by omega), if_neg (by omega)]
          rfl
  | succ k' ih =>
      by_cases hsame : v' = v ∧ cpu' = cpu ∧ k' = k
      · -- the new one is the last
        obtain ⟨rfl, rfl, rfl⟩ := hsame
        rw [if_pos ⟨rfl, rfl, rfl⟩] at ih
        rw [if_neg (by omega), superpageAt_zero_succ hnone, superpageAt_succ (by omega)]
        show (s.link env v' cpu' k').words ((s.link env v' cpu' k').superpageAt v' cpu' k' + (superpageSize - 8)) = 0
        rw [ih, link_words, if_neg, if_pos ⟨hret, by omega, by omega⟩]
        cases k' with
        | zero =>
            have htable := novaGetInodeTable_lt v' env hcpu'
            show ¬ _ = novaGetInodeTable v' cpu'
            omega
        | succ j =>
            have hapart := h.apart_new hgrants hv' hcpu' (hbefore j rfl) hret
            show ¬ _ = s.superpageAt v' cpu' j + (superpageSize - 8)
            omega
      · rw [if_neg hsame] at ih
        by_cases hzero : s.superpageAt v' cpu' k' = 0
        · rw [superpageAt_zero_succ (ih.trans hzero), superpageAt_zero_succ hzero, if_neg]
          intro hall
          obtain ⟨rfl, rfl, rfl⟩ := hall
          exact hbefore k' rfl hzero
        · have hapart := h.apart_new hgrants hv' hcpu' hzero hret
          have hold := h.head hgrants hv' hcpu' hzero
          rw [superpageAt_succ (by rw [ih]; exact hzero), superpageAt_succ hzero]
          show (s.link env v cpu k).words ((s.link env v cpu k).superpageAt v' cpu' k' + (superpageSize - 8)) =
            if _ then _ else s.words (s.superpageAt v' cpu' k' + (superpageSize - 8))
          rw [ih, link_words]
          by_cases hlink : s.superpageAt v' cpu' k' + (superpageSize - 8) = s.linkAddr v cpu k
          · rw [if_pos hlink]
            cases k with
            | zero =>
                have htable := novaGetInodeTable_lt v env hcpu
                change _ = novaGetInodeTable v cpu at hlink
                omega
            | succ j =>
                change _ = s.superpageAt v cpu j + (superpageSize - 8) at hlink
                obtain ⟨rfl, rfl, rfl⟩ := h.once v' hv' cpu' hcpu' k' v hv cpu hcpu j hzero (by omega)
                rw [if_pos ⟨rfl, rfl, rfl⟩]
          · rw [if_neg hlink, if_neg (by omega), if_neg]
            intro hall
            obtain ⟨rfl, rfl, rfl⟩ := hall
            exact hlink rfl

theorem link_extends (h : s.Chained env) (hgrants : env.Grants) (hv : v < 2) (hcpu : cpu < env.cpus)
    (hnone : s.superpageAt v cpu k = 0) (hbefore : ∀ j, k = j + 1 → s.superpageAt v cpu j ≠ 0)
    (hret : (env.grants s.calls).ret = 1) : Extends env s (s.link env v cpu k) := by
  intro v' hv' cpu' hcpu' k' hk'
  rw [link_superpageAt h hgrants hv hcpu hnone hbefore hret hv' hcpu', if_neg]
  intro hall
  obtain ⟨rfl, rfl, rfl⟩ := hall
  exact hk' hnone

theorem Chained.link (h : s.Chained env) (hgrants : env.Grants) (hv : v < 2) (hcpu : cpu < env.cpus)
    (hnone : s.superpageAt v cpu k = 0) (hbefore : ∀ j, k = j + 1 → s.superpageAt v cpu j ≠ 0)
    (hret : (env.grants s.calls).ret = 1) : (s.link env v cpu k).Chained env := by
  have hspec := @link_superpageAt env s v cpu k
  have hsize : superpageSize = 0x200000 := rfl
  have hnew : ∀ v' < 2, ∀ cpu' < env.cpus, ∀ k', s.superpageAt v' cpu' k' ≠ 0 →
      s.superpageAt v' cpu' k' ≠ env.block s.calls := by
    intro v' hv' cpu' hcpu' k' hk' heq
    have hapart := h.apart_new hgrants hv' hcpu' hk' hret
    omega
  refine ⟨fun v' hv' cpu' hcpu' k' hk' => ?_, fun v₁ hv₁ cpu₁ hcpu₁ k₁ v₂ hv₂ cpu₂ hcpu₂ k₂ hk₁ heq => ?_⟩
  · rw [hspec h hgrants hv hcpu hnone hbefore hret hv' hcpu'] at hk' ⊢
    by_cases hsame : v' = v ∧ cpu' = cpu ∧ k' = k
    · exact ⟨s.calls, Nat.lt_succ_self _, hret, if_pos hsame⟩
    · rw [if_neg hsame] at hk' ⊢
      obtain ⟨n, hn, hretn, heq⟩ := h.granted v' hv' cpu' hcpu' k' hk'
      exact ⟨n, Nat.lt_succ_of_lt hn, hretn, heq⟩
  · rw [hspec h hgrants hv hcpu hnone hbefore hret hv₁ hcpu₁] at hk₁ heq
    rw [hspec h hgrants hv hcpu hnone hbefore hret hv₂ hcpu₂] at heq
    by_cases hsame₁ : v₁ = v ∧ cpu₁ = cpu ∧ k₁ = k
    · by_cases hsame₂ : v₂ = v ∧ cpu₂ = cpu ∧ k₂ = k
      · exact ⟨hsame₁.1.trans hsame₂.1.symm, hsame₁.2.1.trans hsame₂.2.1.symm, hsame₁.2.2.trans hsame₂.2.2.symm⟩
      · rw [if_pos hsame₁, if_neg hsame₂] at heq
        rw [if_pos hsame₁] at hk₁
        exact absurd heq.symm (hnew v₂ hv₂ cpu₂ hcpu₂ k₂ (heq ▸ hk₁))
    · rw [if_neg hsame₁] at heq hk₁
      by_cases hsame₂ : v₂ = v ∧ cpu₂ = cpu ∧ k₂ = k
      · rw [if_pos hsame₂] at heq
        exact absurd heq (hnew v₁ hv₁ cpu₁ hcpu₁ k₁ hk₁)
      · rw [if_neg hsame₂] at heq
        exact h.once v₁ hv₁ cpu₁ hcpu₁ k₁ v₂ hv₂ cpu₂ hcpu₂ k₂ hk₁ heq

/-! ### The walk -/

/-- How many superpages are missing at the `n` places behind place `k`. -/
def missing (s : InodeTables) (version cpu : Nat) : Nat → Nat → Nat
  | _, 0 => 0
  | k, n + 1 => (if s.superpageAt version cpu (k + 1) = 0 then 1 else 0) + s.missing version cpu (k + 1) n

/-- Whether the walk over `n` places from place `k` can go to its end. -/
def CanWalk (env : TableEnv) (s : InodeTables) (version cpu : Nat) (extendable : Bool) (k n : Nat) : Prop :=
  s.missing version cpu k n = 0 ∨
    extendable = true ∧ ∀ m < s.missing version cpu k n, (env.grants (s.calls + m)).ret = 1

/-- What a walk over the chain of a CPU does to the tables. -/
structure Grown (env : TableEnv) (s : InodeTables) (version cpu : Nat) (s' : InodeTables) : Prop where
  chained : s'.Chained env
  keeps : Extends env s s'
  others : ∀ v < 2, ∀ cpu' < env.cpus, ∀ k, ¬ (v = version ∧ cpu' = cpu) →
    s'.superpageAt v cpu' k = s.superpageAt v cpu' k

theorem Grown.refl (h : s.Chained env) : Grown env s v cpu s := ⟨h, Extends.refl s, fun _ _ _ _ _ _ => rfl⟩

theorem Grown.trans (h : Grown env s v cpu s') (h' : Grown env s' v cpu s'') : Grown env s v cpu s'' where
  chained := h'.chained
  keeps := h.keeps.trans h'.keeps
  others := fun v hv cpu' hcpu' k hne => (h'.others v hv cpu' hcpu' k hne).trans (h.others v hv cpu' hcpu' k hne)

theorem Grown.link (h : s.Chained env) (hgrants : env.Grants) (hv : v < 2) (hcpu : cpu < env.cpus)
    (hnone : s.superpageAt v cpu k = 0) (hbefore : ∀ j, k = j + 1 → s.superpageAt v cpu j ≠ 0)
    (hret : (env.grants s.calls).ret = 1) : Grown env s v cpu (s.link env v cpu k) where
  chained := h.link hgrants hv hcpu hnone hbefore hret
  keeps := link_extends h hgrants hv hcpu hnone hbefore hret
  others := by
    intro v' hv' cpu' hcpu' k' hne
    rw [link_superpageAt h hgrants hv hcpu hnone hbefore hret hv' hcpu', if_neg]
    exact fun hall => hne ⟨hall.1, hall.2.1⟩

theorem missing_congr {n : Nat} (h : ∀ j, k < j → s'.superpageAt v cpu j = s.superpageAt v cpu j) :
    s'.missing v cpu k n = s.missing v cpu k n := by
  induction n generalizing k with
  | zero => rfl
  | succ n ih =>
      unfold missing
      rw [h (k + 1) (Nat.lt_succ_self k), ih fun j hj => h j (Nat.lt_of_succ_lt hj)]

/-- Nothing changes but that the allocator was asked. -/
theorem newSuperpage_superpageAt (hret : (env.grants s.calls).ret ≠ 1) :
    (s.newSuperpage env).1.superpageAt v cpu k = s.superpageAt v cpu k := by
  have hwords : (s.newSuperpage env).1.words = s.words := by
    funext a
    exact if_neg fun hall => hret hall.1
  induction k with
  | zero => exact congrFun hwords _
  | succ k ih =>
      unfold superpageAt
      rw [ih, hwords]

theorem Grown.refused (h : s.Chained env) (hret : (env.grants s.calls).ret ≠ 1) :
    Grown env s v cpu (s.newSuperpage env).1 := by
  refine ⟨⟨fun v' hv' cpu' hcpu' k' hk' => ?_, fun v₁ hv₁ cpu₁ hcpu₁ k₁ v₂ hv₂ cpu₂ hcpu₂ k₂ hk₁ heq => ?_⟩,
    fun v' _ cpu' _ k' _ => newSuperpage_superpageAt hret, fun v' _ cpu' _ k' _ => newSuperpage_superpageAt hret⟩
  · rw [newSuperpage_superpageAt hret] at hk' ⊢
    obtain ⟨n, hn, hretn, heq⟩ := h.granted v' hv' cpu' hcpu' k' hk'
    exact ⟨n, Nat.lt_succ_of_lt hn, hretn, heq⟩
  · rw [newSuperpage_superpageAt hret] at hk₁ heq
    rw [newSuperpage_superpageAt hret] at heq
    exact h.once v₁ hv₁ cpu₁ hcpu₁ k₁ v₂ hv₂ cpu₂ hcpu₂ k₂ hk₁ heq

/-- **The walk**: it gets to its place, or leaves with an error. -/
theorem walk_spec (h : s.Chained env) (hgrants : env.Grants) (hv : v < 2) (hcpu : cpu < env.cpus)
    (hk : s.superpageAt v cpu k ≠ 0) (extendable extended : Bool) (n : Nat) :
    ∃ s', Grown env s v cpu s' ∧
      (CanWalk env s v cpu extendable k n ∧ s'.superpageAt v cpu (k + n) ≠ 0 ∧ s'.calls = s.calls + s.missing v cpu k n ∧
          walk env extendable n s (s.superpageAt v cpu k) extended =
            (s', .ok (s'.superpageAt v cpu (k + n), extended || decide (s.missing v cpu k n ≠ 0))) ∨
        ¬ CanWalk env s v cpu extendable k n ∧ s'.superpageAt v cpu (k + n) = 0 ∧
          ∃ ret, ret ≠ 0 ∧ walk env extendable n s (s.superpageAt v cpu k) extended = (s', .error ret)) := by
  induction n generalizing s k extended with
  | zero =>
      refine ⟨s, Grown.refl h, Or.inl ⟨Or.inl rfl, hk, rfl, ?_⟩⟩
      unfold walk
      simp [missing]
  | succ n ih =>
      have hplace : k + (n + 1) = k + 1 + n := by omega
      have hnext := superpageAt_succ hk
      change _ = s.words (s.superpageAt v cpu k + (superpageSize - 8)) at hnext
      unfold walk
      rw [if_neg hk]
      dsimp only
      rw [← hnext, hplace]
      unfold CanWalk missing
      by_cases hzero : s.superpageAt v cpu (k + 1) = 0
      · rw [if_pos hzero, if_pos hzero]
        cases extendable with
        | false =>
            refine ⟨s, Grown.refl h, Or.inr ⟨?_, superpageAt_behind hzero, _, by decide, rfl⟩⟩
            intro hcan
            rcases hcan with hcan | hcan
            · omega
            · exact Bool.false_ne_true hcan.1
        | true =>
            by_cases hret : (env.grants s.calls).ret = 1
            · have hbefore : ∀ j, k + 1 = j + 1 → s.superpageAt v cpu j ≠ 0 := by
                intro j hj
                rwa [← Nat.succ_inj.mp hj]
              have hgrown := Grown.link h hgrants hv hcpu hzero hbefore hret
              have hspec := link_superpageAt h hgrants hv hcpu hzero hbefore hret hv hcpu
              have hat : (s.link env v cpu (k + 1)).superpageAt v cpu (k + 1) = env.block s.calls := by
                rw [hspec, if_pos ⟨rfl, rfl, rfl⟩]
              have hmissing : (s.link env v cpu (k + 1)).missing v cpu (k + 1) n = s.missing v cpu (k + 1) n := by
                refine missing_congr fun j hj => ?_
                rw [hspec, if_neg (by omega)]
              have hhead := hgrants.head _ hret
              obtain ⟨s', hgrown', hresult⟩ := ih hgrown.chained (by rw [hat]; omega) true
              have hcalls : (s.link env v cpu (k + 1)).calls = s.calls + 1 := rfl
              rw [hat] at hresult
              have hgo : (if !true = true then (s, Except.error (-Errno.einval.code))
                  else if (env.grants s.calls).ret ≠ 1 then ((s.newSuperpage env).1, Except.error (env.grants s.calls).ret)
                  else walk env true n (s.link env v cpu (k + 1)) (env.block s.calls) true) =
                  walk env true n (s.link env v cpu (k + 1)) (env.block s.calls) true := by
                rw [if_neg (by decide), if_neg (not_not.mpr hret)]
              have hcan : CanWalk env (s.link env v cpu (k + 1)) v cpu true (k + 1) n ↔
                  1 + s.missing v cpu (k + 1) n = 0 ∨
                    true = true ∧ ∀ m < 1 + s.missing v cpu (k + 1) n, (env.grants (s.calls + m)).ret = 1 := by
                unfold CanWalk
                rw [hmissing, hcalls]
                constructor
                · intro hwalk
                  refine Or.inr ⟨rfl, fun m hm => ?_⟩
                  cases m with
                  | zero => exact hret
                  | succ m =>
                      rcases hwalk with hwalk | hwalk
                      · omega
                      · have hgrant := hwalk.2 m (by omega)
                        rwa [Nat.add_right_comm] at hgrant
                · intro hwalk
                  refine Or.inr ⟨rfl, fun m hm => ?_⟩
                  have hgrant := (hwalk.resolve_left (by omega)).2 (m + 1) (by omega)
                  rwa [Nat.add_right_comm]
              refine ⟨s', hgrown.trans hgrown', ?_⟩
              rcases hresult with ⟨hwalk, hne, hcalls', heq⟩ | ⟨hwalk, hnone, ret, hret', heq⟩
              · refine Or.inl ⟨hcan.mp hwalk, hne, ?_, (hgo.trans heq).trans ?_⟩
                · rw [hcalls', hmissing, hcalls]
                  omega
                · simp
              · exact Or.inr ⟨fun hc => hwalk (hcan.mpr hc), hnone, ret, hret', hgo.trans heq⟩
            · have hgrown : Grown env s v cpu (s.newSuperpage env).1 := Grown.refused h hret
              refine ⟨(s.newSuperpage env).1, hgrown, Or.inr ⟨?_, ?_, (env.grants s.calls).ret, ?_, ?_⟩⟩
              · intro hcan
                rcases hcan with hcan | hcan
                · omega
                · exact hret (hcan.2 0 (by omega))
              · exact superpageAt_behind ((newSuperpage_superpageAt hret).trans hzero)
              · rcases hgrants.code s.calls with hcode | hcode <;> omega
              · show (if (env.grants s.calls).ret ≠ 1 then _ else _) = _
                rw [if_pos hret]
                rfl
      · rw [if_neg hzero, if_neg hzero, Nat.zero_add]
        exact ih h hzero extended

/-! ### A call -/

/-- The superpage of a number in the chain of its CPU. -/
def superpageCount (env : TableEnv) (ino : Nat) : Nat := toU32 (ino / env.cpus / 2 ^ numInodesBits)

/-- Whether the superpage of a number is there, or can be. -/
def Reaches (env : TableEnv) (s : InodeTables) (ino version : Nat) (extendable : Bool) : Prop :=
  s.superpageAt version (ino % env.cpus) 0 ≠ 0 ∧
    CanWalk env s version (ino % env.cpus) extendable 0 (superpageCount env ino)

/-- The slot of a number. -/
def SlotOf (env : TableEnv) (s : InodeTables) (ino version a : Nat) : Prop :=
  if ino < novaNormalInodeStart then a = novaGetReservedInodeAddr ino
  else
    s.superpageAt version (ino % env.cpus) (superpageCount env ino) ≠ 0 ∧
      a = s.superpageAt version (ino % env.cpus) (superpageCount env ino) +
        ino / env.cpus % 2 ^ numInodesBits * novaInodeSize

theorem novaGetInodeTable_mod (version cpu : Nat) : novaGetInodeTable (version % 2) cpu = novaGetInodeTable version cpu := by
  unfold novaGetInodeTable
  rw [Nat.mod_mod]

theorem getAddress_spec (h : s.Chained env) (hgrants : env.Grants) (ino version : Nat) (extendable : Bool)
    (alternate : InodeTables → InodeTables) (hino : ¬ ino < novaNormalInodeStart) :
    ∃ s', Grown env s (version % 2) (ino % env.cpus) s' ∧
      (Reaches env s ino (version % 2) extendable ∧
          s'.superpageAt (version % 2) (ino % env.cpus) (superpageCount env ino) ≠ 0 ∧
          s'.calls = s.calls + s.missing (version % 2) (ino % env.cpus) 0 (superpageCount env ino) ∧
          s.getAddress env ino version extendable alternate =
            (if s.missing (version % 2) (ino % env.cpus) 0 (superpageCount env ino) ≠ 0 then alternate s' else s', 0,
              some (s'.superpageAt (version % 2) (ino % env.cpus) (superpageCount env ino) +
                ino / env.cpus % 2 ^ numInodesBits * novaInodeSize)) ∨
        ¬ Reaches env s ino (version % 2) extendable ∧
          s'.superpageAt (version % 2) (ino % env.cpus) (superpageCount env ino) = 0 ∧
          ∃ ret, ret ≠ 0 ∧ s.getAddress env ino version extendable alternate = (s', ret, none)) := by
  have hv : version % 2 < 2 := Nat.mod_lt _ (by decide)
  have hcpu : ino % env.cpus < env.cpus := Nat.mod_lt _ env.cpus_pos
  have hhead : s.words (novaGetInodeTable version (ino % env.cpus)) = s.superpageAt (version % 2) (ino % env.cpus) 0 := by
    rw [← novaGetInodeTable_mod]
    rfl
  unfold getAddress
  rw [if_neg hino]
  dsimp only
  rw [hhead]
  by_cases hzero : s.superpageAt (version % 2) (ino % env.cpus) 0 = 0
  · rw [if_pos hzero]
    have hnone : s.superpageAt (version % 2) (ino % env.cpus) (0 + superpageCount env ino) = 0 := superpageAt_behind hzero
    rw [Nat.zero_add] at hnone
    exact ⟨s, Grown.refl h, Or.inr ⟨fun hreach => hreach.1 hzero, hnone, _, by decide, rfl⟩⟩
  · rw [if_neg hzero]
    obtain ⟨s', hgrown, hresult⟩ := walk_spec h hgrants hv hcpu hzero extendable false (superpageCount env ino)
    rw [Nat.zero_add] at hresult
    refine ⟨s', hgrown, ?_⟩
    unfold superpageCount at hresult ⊢
    rcases hresult with ⟨hcan, hne, hcalls, heq⟩ | ⟨hcan, hnone, ret, hret, heq⟩
    · refine Or.inl ⟨⟨hzero, hcan⟩, hne, hcalls, ?_⟩
      rw [heq]
      simp
    · refine Or.inr ⟨fun hreach => hcan hreach.2, hnone, ret, hret, ?_⟩
      rw [heq]

/-- A slot stays where it is. -/
theorem SlotOf.mono {ino version a : Nat} (hslot : SlotOf env s ino version a) (hv : version < 2) (h : Extends env s s') :
    SlotOf env s' ino version a := by
  unfold SlotOf at hslot ⊢
  by_cases hino : ino < novaNormalInodeStart
  · rw [if_pos hino] at hslot ⊢
    exact hslot
  · rw [if_neg hino] at hslot ⊢
    obtain ⟨hne, ha⟩ := hslot
    rw [h version hv _ (Nat.mod_lt _ env.cpus_pos) _ hne]
    exact ⟨hne, ha⟩

/-- What a call without the other table does. -/
theorem getAddress_grown (h : s.Chained env) (hgrants : env.Grants) (ino version : Nat) (extendable : Bool)
    (alternate : InodeTables → InodeTables)
    (halternate : ∀ t : InodeTables, t.Chained env → (alternate t).Chained env ∧ Extends env t (alternate t)) :
    (s.getAddress env ino version extendable alternate).1.Chained env ∧
      Extends env s (s.getAddress env ino version extendable alternate).1 ∧
      ((s.getAddress env ino version extendable alternate).2.1 = 0 →
        ∃ a, (s.getAddress env ino version extendable alternate).2.2 = some a ∧
          SlotOf env (s.getAddress env ino version extendable alternate).1 ino (version % 2) a) := by
  by_cases hino : ino < novaNormalInodeStart
  · have heq : s.getAddress env ino version extendable alternate = (s, 0, some (novaGetReservedInodeAddr ino)) := if_pos hino
    rw [heq]
    exact ⟨h, Extends.refl s, fun _ => ⟨_, rfl, by unfold SlotOf; rw [if_pos hino]⟩⟩
  · obtain ⟨s', hgrown, ⟨-, hne, -, heq⟩ | ⟨-, -, ret, hret, heq⟩⟩ := getAddress_spec h hgrants ino version extendable alternate hino
    · have hslot : SlotOf env s' ino (version % 2) (s'.superpageAt (version % 2) (ino % env.cpus) (superpageCount env ino) +
          ino / env.cpus % 2 ^ numInodesBits * novaInodeSize) := by
        unfold SlotOf
        rw [if_neg hino]
        exact ⟨hne, rfl⟩
      rw [heq]
      by_cases hmissing : s.missing (version % 2) (ino % env.cpus) 0 (superpageCount env ino) ≠ 0
      · rw [if_pos hmissing]
        obtain ⟨hchained, hkeeps⟩ := halternate s' hgrown.chained
        exact ⟨hchained, hgrown.keeps.trans hkeeps, fun _ => ⟨_, rfl, hslot.mono (Nat.mod_lt _ (by decide)) hkeeps⟩⟩
      · rw [if_neg hmissing]
        exact ⟨hgrown.chained, hgrown.keeps, fun _ => ⟨_, rfl, hslot⟩⟩
    · rw [heq]
      exact ⟨hgrown.chained, hgrown.keeps, fun hzero => absurd hzero hret⟩

/-- **What a call does**: chains are made longer, and an address that is returned is that of the slot. -/
theorem novaGetInodeAddress_grown (h : s.Chained env) (hgrants : env.Grants) (ino version : Nat)
    (extendable extendAlternate : Bool) :
    (s.novaGetInodeAddress env ino version extendable extendAlternate).1.Chained env ∧
      Extends env s (s.novaGetInodeAddress env ino version extendable extendAlternate).1 ∧
      ((s.novaGetInodeAddress env ino version extendable extendAlternate).2.1 = 0 →
        ∃ a, (s.novaGetInodeAddress env ino version extendable extendAlternate).2.2 = some a ∧
          SlotOf env (s.novaGetInodeAddress env ino version extendable extendAlternate).1 ino (version % 2) a) := by
  refine getAddress_grown h hgrants ino version extendable _ fun t ht => ?_
  split
  · obtain ⟨hchained, hkeeps, -⟩ := getAddress_grown ht hgrants ino (version + 1) extendable id fun t ht => ⟨ht, Extends.refl t⟩
    exact ⟨hchained, hkeeps⟩
  · exact ⟨ht, Extends.refl t⟩

/-! ### At the first mount -/

theorem Chained.empty (h : ∀ v < 2, ∀ cpu < env.cpus, s.words (novaGetInodeTable v cpu) = 0) : s.Chained env := by
  have hnone : ∀ v < 2, ∀ cpu < env.cpus, ∀ k, s.superpageAt v cpu k = 0 := by
    intro v hv cpu hcpu k
    induction k with
    | zero => exact h v hv cpu hcpu
    | succ k ih => exact superpageAt_zero_succ ih
  exact ⟨fun v hv cpu hcpu k hk => absurd (hnone v hv cpu hcpu k) hk,
    fun v hv cpu hcpu k _ _ _ _ _ hk => absurd (hnone v hv cpu hcpu k) hk⟩

theorem allocTable_ok (h : s.Chained env) (hgrants : env.Grants) (hv : v < 2) (hcpu : cpu < env.cpus)
    (hnone : s.superpageAt v cpu 0 = 0) (hok : s.allocTable env v cpu = .ok s') : Grown env s v cpu s' := by
  unfold allocTable at hok
  dsimp only at hok
  by_cases hbad : (s.newSuperpage env).2 ≠ 1 ∨ (env.grants s.calls).blocknr = 0
  · rw [if_pos hbad] at hok
    cases hok
  · rw [if_neg hbad] at hok
    cases hok
    exact Grown.link h hgrants hv hcpu hnone (fun j hj => absurd hj (Nat.succ_ne_zero j).symm)
      (not_not.mp fun hne => hbad (Or.inl hne))

/-- The table of a version is made. -/
theorem allocTables_ok (hgrants : env.Grants) (hv : v < 2) (cpus : List Nat) (hcpus : ∀ cpu ∈ cpus, cpu < env.cpus)
    (hnodup : cpus.Nodup) (h : s.Chained env) (hnone : ∀ cpu ∈ cpus, s.superpageAt v cpu 0 = 0)
    (hok : cpus.foldlM (fun s cpu => s.allocTable env v cpu) s = .ok s') :
    s'.Chained env ∧ ∀ v' < 2, v' ≠ v → ∀ cpu < env.cpus, ∀ k, s'.superpageAt v' cpu k = s.superpageAt v' cpu k := by
  induction cpus generalizing s with
  | nil =>
      cases hok
      exact ⟨h, fun _ _ _ _ _ _ => rfl⟩
  | cons cpu cpus ih =>
      rw [List.foldlM_cons] at hok
      obtain ⟨hnot, hnodup⟩ := List.nodup_cons.mp hnodup
      cases hone : s.allocTable env v cpu with
      | error e =>
          rw [hone] at hok
          cases hok
      | ok s₁ =>
          rw [hone] at hok
          have hcpu := hcpus cpu List.mem_cons_self
          have hgrown := allocTable_ok h hgrants hv hcpu (hnone cpu List.mem_cons_self) hone
          have hrest : ∀ cpu' ∈ cpus, s₁.superpageAt v cpu' 0 = 0 := by
            intro cpu' hmem
            have hne : ¬ (v = v ∧ cpu' = cpu) := fun hall => hnot (hall.2 ▸ hmem)
            rw [hgrown.others v hv cpu' (hcpus cpu' (List.mem_cons_of_mem _ hmem)) 0 hne]
            exact hnone cpu' (List.mem_cons_of_mem _ hmem)
          obtain ⟨hchained, hothers⟩ :=
            ih (fun cpu' hmem => hcpus cpu' (List.mem_cons_of_mem _ hmem)) hnodup hgrown.chained hrest hok
          refine ⟨hchained, fun v' hv' hne cpu' hcpu' k => ?_⟩
          rw [hothers v' hv' hne cpu' hcpu' k]
          exact hgrown.others v' hv' cpu' hcpu' k fun hall => hne hall.1

/-- **The tables of a new file system.** -/
theorem novaInitInodeTable_chained (hgrants : env.Grants)
    (hempty : ∀ v < 2, ∀ cpu < env.cpus, s.words (novaGetInodeTable v cpu) = 0)
    (hok : s.novaInitInodeTable env = .ok s') : s'.Chained env := by
  have hall : ∀ cpu ∈ List.range env.cpus, cpu < env.cpus := fun cpu => List.mem_range.mp
  have hmain : ∀ s₁, s.novaAllocInodeTable env 0 = .ok s₁ → s₁.Chained env ∧
      ∀ cpu < env.cpus, s₁.superpageAt 1 cpu 0 = 0 := by
    intro s₁ hone
    obtain ⟨hchained, hothers⟩ := allocTables_ok hgrants (by decide) _ hall List.nodup_range (Chained.empty hempty)
      (fun cpu hcpu => hempty 0 (by decide) cpu (hall cpu hcpu)) hone
    exact ⟨hchained, fun cpu hcpu => (hothers 1 (by decide) (by decide) cpu hcpu 0).trans (hempty 1 (by decide) cpu hcpu)⟩
  unfold novaInitInodeTable at hok
  cases hone : s.novaAllocInodeTable env 0 with
  | error e =>
      split at hok <;> simp [List.range_succ, hone, Bind.bind, Except.bind] at hok
  | ok s₁ =>
      obtain ⟨hchained, hnone⟩ := hmain s₁ hone
      split at hok
      · simp only [List.range_succ, List.range_zero, List.nil_append, List.cons_append, List.foldlM_cons, List.foldlM_nil,
          hone, Bind.bind, Except.bind] at hok
        cases htwo : s₁.novaAllocInodeTable env 1 with
        | error e =>
            rw [htwo] at hok
            cases hok
        | ok s₂ =>
            rw [htwo] at hok
            cases hok
            exact (allocTables_ok hgrants (by decide) _ hall List.nodup_range hchained
              (fun cpu hcpu => hnone cpu (hall cpu hcpu)) htwo).1
      · simp only [List.range_succ, List.range_zero, List.nil_append, List.foldlM_cons, List.foldlM_nil,
          hone, Bind.bind, Except.bind] at hok
        cases hok
        exact hchained

end

end InodeTables

/-! ### Calls one after another -/

/-- A call of `nova_get_inode_address`. -/
structure AddressCall where
  ino : Nat
  version : Nat
  extendable : Bool
  extendAlternate : Bool

/-- A call that succeeded: its number, its table, and `*pi_addr`. -/
structure ReturnedSlot where
  ino : Nat
  version : Nat
  addr : Option Nat
  deriving DecidableEq, Repr

/-- The tables, and what calls returned so far. -/
structure TableState where
  tables : InodeTables
  returned : List ReturnedSlot

/-- The state after a call. -/
def TableState.call (env : TableEnv) (σ : TableState) (c : AddressCall) : TableState :=
  match σ.tables.novaGetInodeAddress env c.ino c.version c.extendable c.extendAlternate with
  | (tables, ret, addr) => ⟨tables, if ret = 0 then ⟨c.ino, c.version % 2, addr⟩ :: σ.returned else σ.returned⟩

def TableStep (env : TableEnv) (σ : TableState) (c : AddressCall) (σ' : TableState) : Prop := σ' = σ.call env c

/-- The number of superpages before the one of the number fits into 32 bits. -/
def AddressCall.Fits (env : TableEnv) (_ : TableState) (c : AddressCall) : Prop :=
  c.ino / env.cpus / 2 ^ numInodesBits < 2 ^ 32

/-- Inodes at two addresses have no byte in common. -/
def SlotsApart (a b : Nat) : Prop := a + novaInodeBytes ≤ b ∨ b + novaInodeBytes ≤ a

/-- **Slots are slots of their own.** -/
structure SlotsOwn (env : TableEnv) (σ : TableState) : Prop where
  addr : ∀ r ∈ σ.returned, ∃ a, r.addr = some a
  same : ∀ r ∈ σ.returned, ∀ r' ∈ σ.returned, r.version = r'.version → r.ino = r'.ino → r.addr = r'.addr
  apart : ∀ r ∈ σ.returned, ∀ r' ∈ σ.returned, ∀ a a', r.version = r'.version → r.ino ≠ r'.ino → r.addr = some a →
    r'.addr = some a' → SlotsApart a a'
  /-- the address of the next superpage, in the last 8 bytes of each -/
  pointers : ∀ r ∈ σ.returned, ∀ a, r.addr = some a → ∀ v < 2, ∀ cpu < env.cpus, ∀ k,
    σ.tables.superpageAt v cpu k ≠ 0 →
      a + novaInodeBytes ≤ σ.tables.superpageAt v cpu k + (superpageSize - 8) ∨
        σ.tables.superpageAt v cpu k + superpageSize ≤ a
  /-- the superpages of the other table, with all their slots -/
  tables : ∀ r ∈ σ.returned, ∀ a, r.addr = some a → ∀ v < 2, v ≠ r.version → ∀ cpu < env.cpus, ∀ k,
    σ.tables.superpageAt v cpu k ≠ 0 →
      a + novaInodeBytes ≤ σ.tables.superpageAt v cpu k ∨ σ.tables.superpageAt v cpu k + superpageSize ≤ a
  reserved : ∀ r ∈ σ.returned, ∀ a, r.addr = some a → ∀ n < novaNormalInodeStart, n ≠ r.ino →
    SlotsApart a (novaGetReservedInodeAddr n)

/-- What holds after every call. -/
structure TableInv (env : TableEnv) (σ : TableState) : Prop where
  chained : σ.tables.Chained env
  slots : ∀ r ∈ σ.returned, r.version < 2 ∧ r.ino / env.cpus / 2 ^ numInodesBits < 2 ^ 32 ∧
    ∃ a, r.addr = some a ∧ σ.tables.SlotOf env r.ino r.version a

section

variable {env : TableEnv} {σ σ' : TableState} {s : InodeTables} {c : AddressCall}

theorem TableInv.step (h : TableInv env σ) (hgrants : env.Grants) (hstep : Guarded (AddressCall.Fits env) (TableStep env) σ c σ') :
    TableInv env σ' := by
  obtain ⟨hfits, rfl⟩ := hstep
  obtain ⟨hchained, hkeeps, hslot⟩ :=
    InodeTables.novaGetInodeAddress_grown h.chained hgrants c.ino c.version c.extendable c.extendAlternate
  refine ⟨hchained, fun r hr => ?_⟩
  have hold : r ∈ σ.returned → r.version < 2 ∧ r.ino / env.cpus / 2 ^ numInodesBits < 2 ^ 32 ∧
      ∃ a, r.addr = some a ∧ (σ.call env c).tables.SlotOf env r.ino r.version a := by
    intro hr
    obtain ⟨hv, hfit, a, ha, hslot⟩ := h.slots r hr
    exact ⟨hv, hfit, a, ha, hslot.mono hv hkeeps⟩
  unfold TableState.call at hr
  dsimp only at hr
  by_cases hret : (σ.tables.novaGetInodeAddress env c.ino c.version c.extendable c.extendAlternate).2.1 = 0
  · rw [if_pos hret] at hr
    rcases List.mem_cons.mp hr with rfl | hr
    · exact ⟨Nat.mod_lt _ (by decide), hfits, hslot hret⟩
    · exact hold hr
  · rw [if_neg hret] at hr
    exact hold hr

/-- A slot is inside its superpage, before the pointer. -/
theorem slot_bounds (k : Nat) : k % 2 ^ numInodesBits * novaInodeSize + novaInodeSize ≤ superpageSize ∧
    superpageSize = 0x200000 ∧ novaInodeSize = 128 ∧ novaInodeBytes = 120 := by
  refine ⟨?_, rfl, rfl, rfl⟩
  have hmod : k % 2 ^ numInodesBits < 2 ^ numInodesBits := Nat.mod_lt _ (by decide)
  unfold numInodesBits at hmod ⊢
  unfold novaInodeSize superpageSize
  omega

/-- Two numbers of one CPU and one superpage. -/
theorem ino_eq_of_place {cpus ino ino' : Nat} (hmod : ino % cpus = ino' % cpus)
    (hpage : ino / cpus / 2 ^ numInodesBits = ino' / cpus / 2 ^ numInodesBits)
    (hindex : ino / cpus % 2 ^ numInodesBits = ino' / cpus % 2 ^ numInodesBits) : ino = ino' := by
  have hdiv : ino / cpus = ino' / cpus := by
    rw [← Nat.div_add_mod (ino / cpus) (2 ^ numInodesBits), ← Nat.div_add_mod (ino' / cpus) (2 ^ numInodesBits), hpage, hindex]
  rw [← Nat.div_add_mod ino cpus, ← Nat.div_add_mod ino' cpus, hdiv, hmod]

theorem reservedInode_lt {n : Nat} (hn : n < novaNormalInodeStart) : novaGetReservedInodeAddr n + 128 ≤ 4096 * 2 := by
  unfold novaNormalInodeStart at hn
  unfold novaGetReservedInodeAddr novaInodeSize
  omega

theorem TableInv.own (h : TableInv env σ) (hgrants : env.Grants) : SlotsOwn env σ := by
  -- where a slot is
  have hplace : ∀ r ∈ σ.returned, ∀ a, r.addr = some a → σ.tables.SlotOf env r.ino r.version a := by
    intro r hr a ha
    obtain ⟨-, -, a', ha', hslot⟩ := h.slots r hr
    rwa [Option.some.inj (ha'.symm.trans ha)] at hslot
  have hcpu : ∀ ino, ino % env.cpus < env.cpus := fun ino => Nat.mod_lt _ env.cpus_pos
  have hother : ∀ r ∈ σ.returned, ∀ a, r.addr = some a → ∀ v < 2, ∀ cpu < env.cpus, ∀ k,
      σ.tables.superpageAt v cpu k ≠ 0 → ¬ (v = r.version ∧ ¬ r.ino < novaNormalInodeStart) →
        a + novaInodeBytes ≤ σ.tables.superpageAt v cpu k ∨ σ.tables.superpageAt v cpu k + superpageSize ≤ a := by
    intro r hr a ha v hv cpu hcpu' k hk hne
    have hslot := hplace r hr a ha
    have hhead := h.chained.head hgrants hv hcpu' hk
    unfold InodeTables.SlotOf at hslot
    by_cases hino : r.ino < novaNormalInodeStart
    · rw [if_pos hino] at hslot
      have hlt := reservedInode_lt hino
      unfold novaInodeBytes
      omega
    · rw [if_neg hino] at hslot
      obtain ⟨hsome, ha⟩ := hslot
      obtain ⟨hin, hsize, hslotSize, hbytes⟩ := slot_bounds (r.ino / env.cpus)
      have hv' := (h.slots r hr).1
      rcases h.chained.apart hgrants hv hcpu' hv' (hcpu r.ino) hk hsome (fun hall => hne ⟨hall.1, hino⟩) with hlt | hlt <;> omega
  refine ⟨?_, ?_, ?_, ?_, fun r hr a ha v hv hne cpu hcpu' k hk => hother r hr a ha v hv cpu hcpu' k hk fun hall => hne hall.1, ?_⟩
  · intro r hr
    obtain ⟨-, -, a, ha, -⟩ := h.slots r hr
    exact ⟨a, ha⟩
  · intro r hr r' hr' hversion hino
    obtain ⟨-, -, a, ha, hslot⟩ := h.slots r hr
    obtain ⟨-, -, a', ha', hslot'⟩ := h.slots r' hr'
    rw [ha, ha']
    unfold InodeTables.SlotOf at hslot hslot'
    rw [← hino, ← hversion] at hslot'
    by_cases hreserved : r.ino < novaNormalInodeStart
    · rw [if_pos hreserved] at hslot hslot'
      rw [hslot, hslot']
    · rw [if_neg hreserved] at hslot hslot'
      rw [hslot.2, hslot'.2]
  · intro r hr r' hr' a a' hversion hino ha ha'
    have hslot := hplace r hr a ha
    have hslot' := hplace r' hr' a' ha'
    unfold InodeTables.SlotOf at hslot hslot'
    unfold SlotsApart
    obtain ⟨hv, hfit, -⟩ := h.slots r hr
    obtain ⟨hv', hfit', -⟩ := h.slots r' hr'
    by_cases hreserved : r.ino < novaNormalInodeStart
    · by_cases hreserved' : r'.ino < novaNormalInodeStart
      · rw [if_pos hreserved] at hslot
        rw [if_pos hreserved'] at hslot'
        rw [hslot, hslot']
        unfold novaGetReservedInodeAddr novaInodeSize novaInodeBytes
        omega
      · rw [if_pos hreserved] at hslot
        rw [if_neg hreserved'] at hslot'
        have hhead := h.chained.head hgrants hv' (hcpu r'.ino) hslot'.1
        have hlt := reservedInode_lt hreserved
        unfold novaInodeBytes
        omega
    · by_cases hreserved' : r'.ino < novaNormalInodeStart
      · rw [if_neg hreserved] at hslot
        rw [if_pos hreserved'] at hslot'
        have hhead := h.chained.head hgrants hv (hcpu r.ino) hslot.1
        have hlt := reservedInode_lt hreserved'
        unfold novaInodeBytes
        omega
      · rw [if_neg hreserved] at hslot
        rw [if_neg hreserved'] at hslot'
        obtain ⟨hsome, ha⟩ := hslot
        obtain ⟨hsome', ha'⟩ := hslot'
        obtain ⟨hin, hsize, hslotSize, hbytes⟩ := slot_bounds (r.ino / env.cpus)
        obtain ⟨hin', -, -, -⟩ := slot_bounds (r'.ino / env.cpus)
        by_cases hsame : r.ino % env.cpus = r'.ino % env.cpus ∧
            InodeTables.superpageCount env r.ino = InodeTables.superpageCount env r'.ino
        · obtain ⟨hmod, hcount⟩ := hsame
          have hindex : r.ino / env.cpus % 2 ^ numInodesBits ≠ r'.ino / env.cpus % 2 ^ numInodesBits := by
            intro hindex
            unfold InodeTables.superpageCount at hcount
            rw [toU32_of_lt hfit, toU32_of_lt hfit'] at hcount
            exact hino (ino_eq_of_place hmod hcount hindex)
          rw [← hversion, ← hmod, ← hcount] at ha'
          rw [ha, ha']
          unfold novaInodeSize novaInodeBytes
          omega
        · have hne : ¬ (r.version = r'.version ∧ r.ino % env.cpus = r'.ino % env.cpus ∧
              InodeTables.superpageCount env r.ino = InodeTables.superpageCount env r'.ino) := fun hall => hsame hall.2
          rcases h.chained.apart hgrants hv (hcpu r.ino) hv' (hcpu r'.ino) hsome hsome' hne with hlt | hlt <;> omega
  · intro r hr a ha v hv cpu hcpu' k hk
    by_cases hsame : v = r.version ∧ ¬ r.ino < novaNormalInodeStart
    · obtain ⟨rfl, hino⟩ := hsame
      have hslot := hplace r hr a ha
      unfold InodeTables.SlotOf at hslot
      rw [if_neg hino] at hslot
      obtain ⟨hsome, ha⟩ := hslot
      obtain ⟨hin, hsize, hslotSize, hbytes⟩ := slot_bounds (r.ino / env.cpus)
      by_cases hplace : r.ino % env.cpus = cpu ∧ InodeTables.superpageCount env r.ino = k
      · obtain ⟨rfl, rfl⟩ := hplace
        left
        omega
      · rcases h.chained.apart hgrants hv (hcpu r.ino) hv hcpu' hsome hk (fun hall => hplace hall.2) with hlt | hlt <;> omega
    · have hsize : superpageSize = 0x200000 := rfl
      rcases hother r hr a ha v hv cpu hcpu' k hk hsame with hlt | hlt
      · left
        omega
      · exact Or.inr hlt
  · intro r hr a ha n hn hne
    have hslot := hplace r hr a ha
    have hlt := reservedInode_lt hn
    unfold InodeTables.SlotOf at hslot
    unfold SlotsApart
    by_cases hino : r.ino < novaNormalInodeStart
    · rw [if_pos hino] at hslot
      rw [hslot]
      unfold novaGetReservedInodeAddr novaInodeSize novaInodeBytes
      omega
    · rw [if_neg hino] at hslot
      have hhead := h.chained.head hgrants (h.slots r hr).1 (hcpu r.ino) hslot.1
      unfold novaInodeBytes
      omega

/-- **Inode slots** are slots of their own in every run of calls whose numbers have less than 2^32
superpages before them. -/
theorem novaGetInodeAddress_slotsOwn (hgrants : env.Grants)
    (hempty : ∀ v < 2, ∀ cpu < env.cpus, s.words (novaGetInodeTable v cpu) = 0)
    (hrun : ∃ s', s.novaInitInodeTable env = .ok s' ∧ Runs (Guarded (AddressCall.Fits env) (TableStep env)) ⟨s', []⟩ σ) :
    SlotsOwn env σ := by
  obtain ⟨s', hinit, hrun⟩ := hrun
  have hstart : TableInv env ⟨s', []⟩ := ⟨InodeTables.novaInitInodeTable_chained hgrants hempty hinit, nofun⟩
  exact (hrun.invariant (fun _ _ _ h hstep => TableInv.step h hgrants hstep) hstart).own hgrants

end

/-- One device, one CPU and replicas, with so many superpages to grant. -/
def oneCpuTables (superpages : Nat) : TableEnv where
  cpus := 1
  cpus_pos := Nat.one_pos
  cpus_le := by decide
  metadataCsum := true
  layout := novaConfig1Nvmm ⟨0, 0⟩
  grants := fun n => if n < superpages then ⟨1, 512 * (n + 1)⟩ else ⟨-28, 0⟩

section

variable {superpages n : Nat}

theorem oneCpuTables_granted (h : ((oneCpuTables superpages).grants n).ret = 1) : n < superpages := by
  by_contra hn
  have hret : (oneCpuTables superpages).grants n = ⟨-28, 0⟩ := if_neg hn
  rw [hret] at h
  exact absurd h (by decide)

theorem oneCpuTables_block (hn : n < superpages) (hfew : superpages ≤ 1000) :
    (oneCpuTables superpages).block n = superpageSize * (n + 1) := by
  have hblocknr : ((oneCpuTables superpages).grants n).blocknr = 512 * (n + 1) := congrArg NewBlocks.blocknr (if_pos hn)
  have hone : ∀ b : Nat, (novaConfig1Nvmm ⟨0, 0⟩).novaGetBlockOff b .b2M .log =
      (0 + (b / 512 / 1 * 512 + b % 512)) * 4096 % 2 ^ 64 := fun _ => rfl
  unfold TableEnv.block
  rw [hblocknr]
  refine (hone _).trans ?_
  unfold superpageSize
  omega

theorem oneCpuTables_grants (hfew : superpages ≤ 1000) : (oneCpuTables superpages).Grants where
  code := by
    intro n
    by_cases hn : n < superpages
    · have hret : (oneCpuTables superpages).grants n = ⟨1, 512 * (n + 1)⟩ := if_pos hn
      exact Or.inl (by rw [hret])
    · have hret : (oneCpuTables superpages).grants n = ⟨-28, 0⟩ := if_neg hn
      exact Or.inr (by rw [hret]; decide)
  head := by
    intro n hret
    rw [oneCpuTables_block (oneCpuTables_granted hret) hfew]
    unfold superpageSize
    omega
  apart := by
    intro m n hne hm hn
    rw [oneCpuTables_block (oneCpuTables_granted hm) hfew, oneCpuTables_block (oneCpuTables_granted hn) hfew]
    unfold superpageSize
    omega

end

/-- The file system when it is new. -/
def oneCpuStart (superpages : Nat) : InodeTables :=
  match InodeTables.novaInitInodeTable (oneCpuTables superpages) ⟨fun _ => 0, 0⟩ with
  | .ok s => s
  | .error _ => ⟨fun _ => 0, 0⟩

theorem oneCpuStart_init : InodeTables.novaInitInodeTable (oneCpuTables 2) ⟨fun _ => 0, 0⟩ = .ok (oneCpuStart 2) := rfl

/-- The first inode that is not reserved. -/
theorem novaGetInodeAddress_slotsOwn_first :
    SlotsOwn (oneCpuTables 2) (TableState.call (oneCpuTables 2) ⟨oneCpuStart 2, []⟩ ⟨32, 0, true, true⟩) :=
  novaGetInodeAddress_slotsOwn (oneCpuTables_grants (by decide)) (fun _ _ _ _ => rfl)
    ⟨oneCpuStart 2, oneCpuStart_init, Runs.single (a := ⟨32, 0, true, true⟩) ⟨show 32 / 1 / 2 ^ (21 - 7) < 2 ^ 32 by decide, rfl⟩⟩

/-- It shares its slot with the one that has 2^32 superpages more before it. -/
theorem novaGetInodeAddress_shares_slot :
    ∃ σ, Runs (TableStep (oneCpuTables 2)) ⟨oneCpuStart 2, []⟩ σ ∧ ¬ SlotsOwn (oneCpuTables 2) σ := by
  refine ⟨TableState.call (oneCpuTables 2) (TableState.call (oneCpuTables 2) ⟨oneCpuStart 2, []⟩ ⟨32, 0, false, false⟩)
    ⟨2 ^ 46 + 32, 0, false, false⟩, (Runs.single rfl).tail rfl, fun h => ?_⟩
  have hreturned : (TableState.call (oneCpuTables 2) (TableState.call (oneCpuTables 2) ⟨oneCpuStart 2, []⟩ ⟨32, 0, false, false⟩)
      ⟨2 ^ 46 + 32, 0, false, false⟩).returned = [⟨2 ^ 46 + 32, 0, some 2101248⟩, ⟨32, 0, some 2101248⟩] := by
    decide +kernel
  have hapart := h.apart ⟨2 ^ 46 + 32, 0, some 2101248⟩ (by rw [hreturned]; simp) ⟨32, 0, some 2101248⟩
    (by rw [hreturned]; simp) 2101248 2101248 rfl (by decide) rfl rfl
  exact absurd hapart (by unfold SlotsApart novaInodeBytes; omega)

end Parfs
