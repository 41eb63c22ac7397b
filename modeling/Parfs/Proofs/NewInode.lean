/-
Creating an inode.

The number is taken first.  What comes after may find no superpage for it, and then the number is gone
all the same: the way out does not give it back.  With replicas the other table is made longer only
in the call that makes the first one longer, and nobody looks whether it was; so a number may have a
slot in the first table and none in the other.
-/
import Mathlib.Data.List.Nodup
import Parfs.Proofs.InodeTable

namespace Parfs

open Lib

/-- The number a map has next, when there is one. -/
def InodeMap.nextFree (m : InodeMap) : Option Nat :=
  (m.firstInodeRange.bind m.node).bind fun i => if i.rangeHigh + 1 < maxInode - 1 then some (i.rangeHigh + 1) else none

/-- Every tree of numbers in use, its first range and its count, and the count of all. -/
structure SameNumbers (s s' : InodeMaps) : Prop where
  trees : ∀ cpu, (s'.inodeMaps cpu).inodeInuseTree = (s.inodeMaps cpu).inodeInuseTree
  firsts : ∀ cpu, (s'.inodeMaps cpu).firstInodeRange = (s.inodeMaps cpu).firstInodeRange
  counts : ∀ cpu, (s'.inodeMaps cpu).numRangeNodeInode = (s.inodeMaps cpu).numRangeNodeInode
  used : s'.sInodesUsedCount = s.sInodesUsedCount

/-- The slot of a number is in a superpage that is there, and with replicas there is one in the other
table. -/
structure SlotThere (env : TableEnv) (s : InodeTables) (ino a : Nat) : Prop where
  main : s.superpageAt 0 (ino % env.cpus) (InodeTables.superpageCount env ino) ≠ 0
  addr : a = s.superpageAt 0 (ino % env.cpus) (InodeTables.superpageCount env ino) +
    ino / env.cpus % 2 ^ numInodesBits * novaInodeSize
  alternate : env.metadataCsum = true → s.superpageAt 1 (ino % env.cpus) (InodeTables.superpageCount env ino) ≠ 0

/-- A call that returns 0 has taken no number, and one that returns a number has a slot for it. -/
structure NewInodeRight (benv : BallocEnv) (env : TableEnv) (s : InodeSb) : Prop where
  failed : (novaNewNovaInode benv env s).2.1 = 0 → SameNumbers s.maps (novaNewNovaInode benv env s).1.maps
  created : (novaNewNovaInode benv env s).2.1 ≠ 0 → ∃ a, (novaNewNovaInode benv env s).2.2 = some a ∧
    SlotThere env (novaNewNovaInode benv env s).1.tables (novaNewNovaInode benv env s).2.1 a

/-- The other table has the superpage of a number, or the first lacks it and what the other lacks is
granted after what the first does. -/
def AlternateThere (env : TableEnv) (t : InodeTables) (ino : Nat) : Prop :=
  t.superpageAt 1 (ino % env.cpus) (InodeTables.superpageCount env ino) ≠ 0 ∨
    t.missing 0 (ino % env.cpus) 0 (InodeTables.superpageCount env ino) ≠ 0 ∧ t.superpageAt 1 (ino % env.cpus) 0 ≠ 0 ∧
      ∀ m < t.missing 1 (ino % env.cpus) 0 (InodeTables.superpageCount env ino),
        (env.grants (t.calls + t.missing 0 (ino % env.cpus) 0 (InodeTables.superpageCount env ino) + m)).ret = 1

/-- The tables have room for a number. -/
structure RoomFor (env : TableEnv) (t : InodeTables) (ino : Nat) : Prop where
  main : t.Reaches env ino 0 true
  alternate : env.metadataCsum = true → AlternateThere env t ino

section

variable {benv : BallocEnv} {env : TableEnv} {m m' : InodeMap} {t : InodeTables} {s : InodeSb} {reserved k ino : Nat}

theorem allocUnusedIn_number (h : allocUnusedIn benv m = (m', .ok k)) :
    ∃ i, m.firstInodeRange.bind m.node = some i ∧ k = i.rangeHigh + 1 := by
  unfold allocUnusedIn at h
  cases hfirst : m.firstInodeRange.bind m.node with
  | none =>
      rw [hfirst] at h
      cases h
  | some i =>
      refine ⟨i, rfl, ?_⟩
      rw [hfirst] at h
      dsimp only at h
      by_cases hsum : (!novaRangeNodeChecksumOk benv i) = true
      · rw [if_pos hsum] at h
        cases h
      · rw [if_neg hsum] at h
        cases hnext : m.rbNext i.addr with
        | none =>
            rw [hnext] at h
            dsimp only at h
            by_cases hroom : i.rangeHigh + 1 < maxInode - 1
            · rw [if_pos hroom] at h
              cases h
              rfl
            · rw [if_neg hroom] at h
              cases h
        | some nextI =>
            rw [hnext] at h
            dsimp only at h
            by_cases hsum' : (!novaRangeNodeChecksumOk benv nextI) = true
            · rw [if_pos hsum'] at h
              cases h
            · rw [if_neg hsum'] at h
              by_cases hfill : i.rangeHigh + 1 = nextI.rangeLow - 1
              · rw [if_pos hfill] at h
                cases h
                rfl
              · rw [if_neg hfill] at h
                by_cases hroom : i.rangeHigh + 1 < nextI.rangeLow - 1
                · rw [if_pos hroom] at h
                  cases h
                  rfl
                · rw [if_neg hroom] at h
                  cases h

/-- A map in order hands out its next number, or there is none and it stays as it is. -/
theorem allocUnusedIn_nextFree (h : m.Wf benv reserved) :
    (∃ m' k, m.nextFree = some k ∧ allocUnusedIn benv m = (m', .ok k) ∧ reserved < k) ∨
      m.nextFree = none ∧ ∃ e, allocUnusedIn benv m = (m, .error e) := by
  rcases allocUnusedIn_spec h with ⟨m', k, hrun, -, hres, hmax, -, -⟩ | ⟨hrun, i, hi, hfirst, hfull⟩
  · left
    obtain ⟨i, hnode, rfl⟩ := allocUnusedIn_number hrun
    refine ⟨m', _, ?_, hrun, hres⟩
    unfold InodeMap.nextFree
    rw [hnode]
    exact if_pos hmax
  · right
    refine ⟨?_, _, hrun⟩
    obtain ⟨i₀, rest, hnodes, hfirst₀, -, -⟩ := h.first
    have hnode : m.firstInodeRange.bind m.node = some i₀ := by
      rw [hfirst₀]
      exact InodeMap.node_first hnodes
    -- both are the node that `first_inode_range` points to
    have haddr : i.addr = i₀.addr := Option.some.inj (hfirst.symm.trans hfirst₀)
    have hsame : i = i₀ := List.inj_on_of_nodup_map h.ok.nodup hi (by rw [hnodes]; exact List.mem_cons_self) haddr
    unfold InodeMap.nextFree
    rw [hnode]
    exact if_neg (hsame ▸ hfull _ (Nat.lt_succ_self _))

theorem InodeTables.missing_eq_zero {version cpu n : Nat} (h : t.superpageAt version cpu (k + n) ≠ 0) :
    t.missing version cpu k n = 0 := by
  induction n generalizing k with
  | zero => rfl
  | succ n ih =>
      have hplace : k + (n + 1) = k + 1 + n := by omega
      rw [hplace] at h
      unfold missing
      rw [if_neg (superpageAt_before h), ih h]

/-- **The address of a new number**: there is one with its slots, or an error. -/
theorem novaGetInodeAddress_new (h : t.Chained env) (hgrants : env.Grants) (hino : ¬ ino < novaNormalInodeStart) :
    (∃ t' a, t.novaGetInodeAddress env ino 0 true true = (t', 0, some a) ∧ t.Reaches env ino 0 true ∧
        (SlotThere env t' ino a ↔ (env.metadataCsum = true → AlternateThere env t ino))) ∨
      ∃ t' ret, t.novaGetInodeAddress env ino 0 true true = (t', ret, none) ∧ ret ≠ 0 ∧ ¬ t.Reaches env ino 0 true := by
  have hcpu : ino % env.cpus < env.cpus := Nat.mod_lt _ env.cpus_pos
  obtain ⟨t₁, hgrown, hresult⟩ := InodeTables.getAddress_spec h hgrants ino 0 true
    (fun s => if (true && env.metadataCsum) = true then (s.getAddress env ino (0 + 1) true id).1 else s) hino
  rcases hresult with ⟨hreach, hne, hcalls, heq⟩ | ⟨hreach, -, ret, hret, heq⟩
  · left
    have hother : ∀ k, t₁.superpageAt 1 (ino % env.cpus) k = t.superpageAt 1 (ino % env.cpus) k := fun k =>
      hgrown.others 1 (by decide) _ hcpu k fun hall => absurd hall.1 (by decide)
    have hmissing : t₁.missing 1 (ino % env.cpus) 0 (InodeTables.superpageCount env ino) =
        t.missing 1 (ino % env.cpus) 0 (InodeTables.superpageCount env ino) :=
      InodeTables.missing_congr fun k _ => hother k
    refine ⟨_, _, heq, hreach, ?_⟩
    by_cases hext : t.missing (0 % 2) (ino % env.cpus) 0 (InodeTables.superpageCount env ino) ≠ 0
    · rw [if_pos hext]
      by_cases hcsum : env.metadataCsum = true
      · -- the other table is made longer as well, if it can
        rw [if_pos (by rw [hcsum]; rfl)]
        obtain ⟨t₂, hgrown₂, hresult₂⟩ := InodeTables.getAddress_spec hgrown.chained hgrants ino (0 + 1) true id hino
        have hmain : t₂.superpageAt 0 (ino % env.cpus) (InodeTables.superpageCount env ino) =
            t₁.superpageAt 0 (ino % env.cpus) (InodeTables.superpageCount env ino) :=
          hgrown₂.others 0 (by decide) _ hcpu _ fun hall => absurd hall.1 (by decide)
        have hreach₂ : t₁.Reaches env ino ((0 + 1) % 2) true ↔ AlternateThere env t ino := by
          unfold InodeTables.Reaches InodeTables.CanWalk AlternateThere
          show t₁.superpageAt 1 _ 0 ≠ 0 ∧ (t₁.missing 1 _ 0 _ = 0 ∨ true = true ∧ ∀ m < t₁.missing 1 _ 0 _, _) ↔ _
          rw [hother, hmissing, hcalls]
          constructor
          · intro hall
            obtain ⟨hhead, hgrant⟩ := hall
            refine Or.inr ⟨hext, hhead, fun m hm => ?_⟩
            rcases hgrant with hzero | hgrant
            · omega
            · exact hgrant.2 m hm
          · intro hall
            rcases hall with hsome | ⟨-, hhead, hgrant⟩
            · rw [← Nat.zero_add (InodeTables.superpageCount env ino)] at hsome
              exact ⟨InodeTables.superpageAt_before hsome, Or.inl (InodeTables.missing_eq_zero hsome)⟩
            · exact ⟨hhead, Or.inr ⟨rfl, hgrant⟩⟩
        constructor
        · intro hslot _
          rw [← hreach₂]
          rcases hresult₂ with ⟨hreach₂, -⟩ | ⟨-, hnone, ret, -, heq₂⟩
          · exact hreach₂
          · rw [heq₂] at hslot
            exact absurd hnone (hslot.alternate hcsum)
        · intro halt
          rcases hresult₂ with ⟨-, hne₂, -, heq₂⟩ | ⟨hnot, -⟩
          · have hstate : (t₁.getAddress env ino (0 + 1) true id).1 = t₂ := by
              rw [heq₂]
              exact ite_self _
            rw [hstate]
            exact ⟨by rw [hmain]; exact hne, by rw [hmain], fun _ => hne₂⟩
          · exact absurd (hreach₂.mpr (halt hcsum)) hnot
      · rw [if_neg (by simp [hcsum])]
        exact ⟨fun _ hc => absurd hc hcsum, fun _ => ⟨hne, rfl, fun hc => absurd hc hcsum⟩⟩
    · rw [if_neg hext]
      constructor
      · intro hslot hc
        have halt := hslot.alternate hc
        rw [hother] at halt
        exact Or.inl halt
      · intro halt
        refine ⟨hne, rfl, fun hc => ?_⟩
        rw [hother]
        exact (halt hc).resolve_right fun hall => hext hall.1
  · exact Or.inr ⟨t₁, ret, heq, hret, hreach⟩

theorem novaAllocUnusedInode_nextFree {cpuid : Nat} (h : (s.maps.inodeMaps cpuid).Wf benv (initialRangeHigh s.maps.cpus)) :
    (∃ maps k, (s.maps.inodeMaps cpuid).nextFree = some k ∧
        novaAllocUnusedInode benv s.maps cpuid = (maps, .ok (k * s.maps.cpus + cpuid)) ∧
        novaNormalInodeStart ≤ k * s.maps.cpus + cpuid ∧ maps.sInodesUsedCount = s.maps.sInodesUsedCount + 1) ∨
      (s.maps.inodeMaps cpuid).nextFree = none ∧ ∃ e, novaAllocUnusedInode benv s.maps cpuid = (s.maps, .error e) := by
  unfold novaAllocUnusedInode
  rcases allocUnusedIn_nextFree h with ⟨m', k, hnext, hrun, hres⟩ | ⟨hnext, e, hrun⟩
  · left
    have hstart := normalInodeStart_le s.maps.cpus_pos hres
    rw [hrun]
    exact ⟨_, k, hnext, rfl, by omega, rfl⟩
  · right
    rw [hrun]
    exact ⟨hnext, e, rfl⟩

/-- **Creating an inode** is right if and only if the map has no number, or the tables have room for the
one it has. -/
theorem novaNewNovaInode_right_iff (hmaps : ∀ cpu < s.maps.cpus, (s.maps.inodeMaps cpu).Wf benv (initialRangeHigh s.maps.cpus))
    (hmapId : s.mapId < s.maps.cpus) (htables : s.tables.Chained env) (hgrants : env.Grants) :
    NewInodeRight benv env s ↔
      ∀ k, (s.maps.inodeMaps s.mapId).nextFree = some k → RoomFor env s.tables (k * s.maps.cpus + s.mapId) := by
  rcases novaAllocUnusedInode_nextFree (hmaps s.mapId hmapId) with ⟨maps, k, hnext, hrun, hstart, hused⟩ | ⟨hnext, e, hrun⟩
  · have hone : (∀ k', (s.maps.inodeMaps s.mapId).nextFree = some k' → RoomFor env s.tables (k' * s.maps.cpus + s.mapId)) ↔
        RoomFor env s.tables (k * s.maps.cpus + s.mapId) := by
      rw [hnext]
      simp
    rw [hone]
    have hino : ¬ k * s.maps.cpus + s.mapId < novaNormalInodeStart := Nat.not_lt.mpr hstart
    have hpos : k * s.maps.cpus + s.mapId ≠ 0 := by
      unfold novaNormalInodeStart at hstart
      omega
    have hnew : ∀ tables ret piAddr,
        s.tables.novaGetInodeAddress env (k * s.maps.cpus + s.mapId) 0 true true = (tables, ret, piAddr) →
        novaNewNovaInode benv env s = ({ s with maps := maps, tables := tables, mapId := (s.mapId + 1) % s.maps.cpus },
          if ret ≠ 0 then 0 else k * s.maps.cpus + s.mapId, piAddr) := by
      intro tables ret piAddr haddr
      unfold novaNewNovaInode
      dsimp only
      rw [hrun]
      dsimp only
      rw [haddr]
    rcases novaGetInodeAddress_new htables hgrants hino with ⟨t', a, heq, hreach, hslot⟩ | ⟨t', ret, heq, hret, hreach⟩
    · replace hnew := hnew _ _ _ heq
      rw [if_neg (by simp)] at hnew
      constructor
      · intro hright
        obtain ⟨a', ha', hthere⟩ := hright.created (by rw [hnew]; exact hpos)
        rw [hnew] at ha' hthere
        obtain rfl := Option.some.inj ha'
        exact ⟨hreach, hslot.mp hthere⟩
      · intro hroom
        refine ⟨fun hzero => ?_, fun _ => ⟨a, by rw [hnew], ?_⟩⟩
        · rw [hnew] at hzero
          exact absurd hzero hpos
        · rw [hnew]
          exact hslot.mpr hroom.alternate
    · replace hnew := hnew _ _ _ heq
      rw [if_pos hret] at hnew
      constructor
      · intro hright
        -- the number was not given back
        have hsame := (hright.failed (by rw [hnew])).used
        rw [hnew] at hsame
        change maps.sInodesUsedCount = s.maps.sInodesUsedCount at hsame
        omega
      · intro hroom
        exact absurd hroom.main hreach
  · rw [hnext]
    refine ⟨fun _ k hk => absurd hk (Option.some_ne_none k).symm, fun _ => ?_⟩
    have hnew : novaNewNovaInode benv env s = ({ s with mapId := (s.mapId + 1) % s.maps.cpus }, 0, none) := by
      unfold novaNewNovaInode
      dsimp only
      rw [hrun]
    refine ⟨fun _ => ?_, fun hne => ?_⟩
    · rw [hnew]
      exact ⟨fun _ => rfl, fun _ => rfl, fun _ => rfl, rfl⟩
    · rw [hnew] at hne
      exact absurd rfl hne

end

/-- One CPU, with all numbers in use up to `high`. -/
def inUseTo (high : Nat) : InodeMaps where
  cpus := 1
  cpus_pos := Nat.one_pos
  inodeMaps := fun _ =>
    { InodeMap.zero with
      inodeInuseTree := .node .nil ⟨1, 0, high, 0⟩ .nil
      numRangeNodeInode := 1
      firstInodeRange := some 1 }
  sInodesUsedCount := high + 1

theorem inUseTo_wf {high : Nat} (hlo : 32 ≤ high) (hhi : high ≤ maxInode - 2) (cpu : Nat) :
    ((inUseTo high).inodeMaps cpu).Wf plainEnv (initialRangeHigh 1) where
  ok := NodesOk.singleton (Nat.zero_le _) (Nat.zero_le _) hhi rfl
  first := ⟨⟨1, 0, high, 0⟩, [], rfl, rfl, rfl, hlo⟩
  count := rfl

theorem oneCpuStart_chained : (oneCpuStart 2).Chained (oneCpuTables 2) :=
  InodeTables.novaInitInodeTable_chained (oneCpuTables_grants (by decide)) (fun _ _ _ _ => rfl) oneCpuStart_init

/-- Number 33, in the superpages of a new file system. -/
theorem novaNewNovaInode_right_iff_first :
    NewInodeRight plainEnv (oneCpuTables 2) ⟨inUseTo 32, oneCpuStart 2, 0⟩ ↔
      ∀ k, ((inUseTo 32).inodeMaps 0).nextFree = some k → RoomFor (oneCpuTables 2) (oneCpuStart 2) (k * 1 + 0) :=
  novaNewNovaInode_right_iff (fun cpu _ => inUseTo_wf (by decide) (by decide) cpu) (by decide) oneCpuStart_chained
    (oneCpuTables_grants (by decide))

/-- Number 16384 needs a superpage that is not granted, and stays taken. -/
theorem novaNewNovaInode_leaks : (∀ cpu, ((inUseTo 16383).inodeMaps cpu).Wf plainEnv (initialRangeHigh 1)) ∧
    (oneCpuStart 2).Chained (oneCpuTables 2) ∧ (oneCpuTables 2).Grants ∧
    ¬ NewInodeRight plainEnv (oneCpuTables 2) ⟨inUseTo 16383, oneCpuStart 2, 0⟩ := by
  refine ⟨inUseTo_wf (by decide) (by decide), oneCpuStart_chained, oneCpuTables_grants (by decide), fun h => ?_⟩
  have hzero : (novaNewNovaInode plainEnv (oneCpuTables 2) ⟨inUseTo 16383, oneCpuStart 2, 0⟩).2.1 = 0 := by decide +kernel
  have hused : (novaNewNovaInode plainEnv (oneCpuTables 2) ⟨inUseTo 16383, oneCpuStart 2, 0⟩).1.maps.sInodesUsedCount = 16385 := by
    decide +kernel
  have hsame := (h.failed hzero).used
  rw [hused] at hsame
  exact absurd hsame (by decide)

end Parfs
