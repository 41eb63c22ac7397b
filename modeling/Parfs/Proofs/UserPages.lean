/-
What a caller touches of a user's buffer, and the tasks an agent makes of it.

The loop that touches the pages keeps the place it began with within a page, so its last turn may
lie behind the buffer, and is in the last page still: there it takes the last byte.

Tasks end where the memory does not go on in the next page, so there are as many as there are such
places before the first page that is missing.  The array has room for twelve.  Whether there is room
for a task is looked at when it is in the array.
-/
import Mathlib.Data.List.Chain
import Parfs.UserPages
import Parfs.Proofs.DelegationFail

namespace Parfs

open Lib

/-! ### The pages a caller touches -/

section

variable {clearUser : Nat → Nat} {uaddr bytes i : Nat}

/-- What the turns from `i` on do: they keep to the buffer, and touch all pages from there unless
one cannot be touched. -/
structure Prefault.From (clearUser : Nat → Nat) (uaddr bytes i : Nat) (r : Prefault) : Prop where
  within : ∀ a ∈ r.accessed, uaddr ≤ a ∧ a < uaddr + bytes
  touched : r.ret = 0 → ∀ page, i / 4096 ≤ page → page ≤ (uaddr + bytes - 1) / 4096 → ∃ a ∈ r.accessed, a / 4096 = page
  fault : r.ret ≠ 0 → ∃ a ∈ r.accessed, clearUser a = r.ret

theorem roundupPage_of_lt {p : Nat} (h : p < 2 ^ 64 - 4096) : roundupPage p = p / 4096 * 4096 + 4096 := by
  unfold roundupPage
  omega

theorem prefaultLoop_spec (clearUser : Nat → Nat) (hbytes : 1 ≤ bytes) (huser : uaddr + bytes ≤ 2 ^ 64 - 4096) (turns : Nat)
    (hlo : uaddr ≤ i)
    (hturns : (uaddr + bytes - 1) / 4096 * 4096 + 4096 ≤ i + 4096 * turns) :
    ∃ r : Prefault, (∀ fuel, turns < fuel →
      prefaultLoop clearUser uaddr bytes ((uaddr + bytes - 1) / 4096 * 4096 + 4096) fuel i = some r) ∧
      r.From clearUser uaddr bytes i := by
  induction turns generalizing i with
  | zero =>
      refine ⟨⟨[], 0⟩, fun fuel hfuel => ?_, nofun, fun _ page h1 h2 => by omega, fun h => absurd rfl h⟩
      obtain ⟨fuel, rfl⟩ := Nat.exists_eq_succ_of_ne_zero (Nat.ne_of_gt hfuel)
      rw [prefaultLoop, if_neg (by omega)]
  | succ turns ih =>
      by_cases hmore : i < (uaddr + bytes - 1) / 4096 * 4096 + 4096
      · obtain ⟨target, htarget⟩ : ∃ target, target =
            if i > (uaddr + bytes - 1) % 2 ^ 64 then (uaddr + bytes - 1) % 2 ^ 64 else i := ⟨_, rfl⟩
        -- a turn behind the buffer is still in its last page
        obtain ⟨hpage, hin⟩ : target / 4096 = i / 4096 ∧ uaddr ≤ target ∧ target < uaddr + bytes := by
          split at htarget <;> omega
        by_cases hret : clearUser target = 0
        · obtain ⟨r, hr, hfrom⟩ := ih (i := i + 4096) (by omega) (by omega)
          refine ⟨⟨target :: r.accessed, r.ret⟩, fun fuel hfuel => ?_, ?_, ?_, ?_⟩
          · obtain ⟨fuel, rfl⟩ := Nat.exists_eq_succ_of_ne_zero (Nat.ne_of_gt (Nat.zero_lt_of_lt hfuel))
            rw [prefaultLoop, if_pos hmore]
            dsimp only
            rw [← htarget, if_neg (not_not.mpr hret), Nat.mod_eq_of_lt (by omega), hr fuel (by omega)]
            rfl
          · intro a ha
            rcases List.mem_cons.mp ha with rfl | ha
            · exact hin
            · exact hfrom.within a ha
          · intro hzero page h1 h2
            by_cases hfirst : i / 4096 = page
            · exact ⟨target, List.mem_cons_self, hpage.trans hfirst⟩
            · obtain ⟨a, ha, hapage⟩ := hfrom.touched hzero page (by omega) h2
              exact ⟨a, List.mem_cons_of_mem _ ha, hapage⟩
          · intro hne
            obtain ⟨a, ha, hclear⟩ := hfrom.fault hne
            exact ⟨a, List.mem_cons_of_mem _ ha, hclear⟩
        · refine ⟨⟨[target], clearUser target⟩, fun fuel hfuel => ?_, ?_, fun hzero => absurd hzero hret, ?_⟩
          · obtain ⟨fuel, rfl⟩ := Nat.exists_eq_succ_of_ne_zero (Nat.ne_of_gt (Nat.zero_lt_of_lt hfuel))
            rw [prefaultLoop, if_pos hmore]
            dsimp only
            rw [← htarget, if_pos hret]
          · intro a ha
            rw [List.mem_singleton.mp ha]
            exact hin
          · exact fun _ => ⟨target, List.mem_singleton_self _, rfl⟩
      · refine ⟨⟨[], 0⟩, fun fuel hfuel => ?_, nofun, fun _ page h1 h2 => by omega, fun h => absurd rfl h⟩
        obtain ⟨fuel, rfl⟩ := Nat.exists_eq_succ_of_ne_zero (Nat.ne_of_gt (Nat.zero_lt_of_lt hfuel))
        rw [prefaultLoop, if_neg hmore]

/-- **Prefaulting.**  The memory of a user ends below the last page there is: `access_ok` sees to that.
The loop ends, keeps to the buffer, and touches every page of it unless one cannot be touched. -/
theorem prefault_touches (clearUser : Nat → Nat) (hbytes : 1 ≤ bytes) (huser : uaddr + bytes ≤ 2 ^ 64 - 4096) :
    ∃ r : Prefault, (∀ fuel, bytes / 4096 + 2 < fuel → prefault clearUser uaddr bytes fuel = some r) ∧
      (∀ a ∈ r.accessed, uaddr ≤ a ∧ a < uaddr + bytes) ∧
      ((∃ a ∈ r.accessed, clearUser a ≠ 0) ∨
        ∀ page, (∃ x, uaddr ≤ x ∧ x < uaddr + bytes ∧ x / 4096 = page) → ∃ a ∈ r.accessed, a / 4096 = page) := by
  obtain ⟨r, hr, hfrom⟩ := prefaultLoop_spec clearUser hbytes huser (bytes / 4096 + 2) le_rfl (by omega)
  refine ⟨r, fun fuel hfuel => ?_, hfrom.within, ?_⟩
  · unfold prefault
    rw [roundupPage_of_lt (by omega)]
    exact hr fuel hfuel
  · by_cases hret : r.ret = 0
    · right
      intro page hpage
      obtain ⟨x, h1, h2, hpage⟩ := hpage
      exact hfrom.touched hret page (by omega) (by omega)
    · obtain ⟨a, ha, hclear⟩ := hfrom.fault hret
      exact Or.inl ⟨a, ha, hclear ▸ hret⟩

end

/-- Two bytes on both sides of the end of a page. -/
theorem prefault_touches_twoPages : 1 ≤ 2 ∧ 8191 + 2 ≤ 2 ^ 64 - 4096 ∧
    ∃ r : Prefault, (∀ fuel, 2 / 4096 + 2 < fuel → prefault (fun _ => 0) 8191 2 fuel = some r) ∧
      (∀ a ∈ r.accessed, 8191 ≤ a ∧ a < 8191 + 2) ∧
      ((∃ a ∈ r.accessed, (0 : Nat) ≠ 0) ∨
        ∀ page, (∃ x, 8191 ≤ x ∧ x < 8191 + 2 ∧ x / 4096 = page) → ∃ a ∈ r.accessed, a / 4096 = page) :=
  ⟨by decide, by decide, prefault_touches (fun _ => 0) (by decide) (by decide)⟩

/-! ### Tasks -/

/-- Memory that does not go on where the task ends. -/
def AgentTask.Apart (t u : AgentTask) : Prop := u.kuaddr ≠ t.kuaddr + t.size

/-- The stores are to the array, and if there are tasks they are exactly the buffer's memory, as few
as can be. -/
structure TasksRight (env : AgentEnv) (uaddr bytes : Nat) (r : TaskArray × Bool) : Prop where
  inArray : ∀ k ∈ r.1.stores, k < novaAgentTaskMaxSize
  few : r.2 = true → r.1.tasks.length ≤ novaAgentTaskMaxSize
  size : r.2 = true → tasksSize r.1.tasks = bytes
  exact : r.2 = true → ∀ j < bytes, taskAddr r.1.tasks j = some (userVirtAddrToPhyAddr env (uaddr + j))
  apart : r.2 = true → r.1.tasks.IsChain AgentTask.Apart

/-- The pages of a buffer before the first one that is not there. -/
def foundPages (env : AgentEnv) (uaddr bytes : Nat) : List Nat :=
  (List.range' (uaddr / 4096) (writeNumBlocks uaddr bytes)).takeWhile fun p =>
    userVirtAddrToPhyAddr env (max uaddr (4096 * p)) ≠ 0

/-- How many pieces some pages are in, when `prev` is the frame that would go on with what was before. -/
def physPieces (env : AgentEnv) : Option Nat → List Nat → Nat
  | _, [] => 0
  | prev, p :: ps => (if env.pte p = prev then 0 else 1) + physPieces env ((env.pte p).map (· + 1)) ps

section

variable {env : AgentEnv} {a a' : TaskArray} {kuaddr size uaddr bytes i left fuel : Nat} {prev : Option Nat}
  {tasks : List AgentTask} {t : AgentTask}

/-- A new task goes to the next index. -/
theorem TaskArray.add_fresh (h : ∀ t ∈ a.tasks.getLast?, kuaddr ≠ t.kuaddr + t.size) : a.add kuaddr size =
    (⟨a.tasks ++ [⟨kuaddr, size⟩], a.stores ++ [a.tasks.length]⟩, !(a.tasks.length + 1 > novaAgentTaskMaxSize)) := by
  unfold TaskArray.add
  cases hlast : a.tasks.getLast? with
  | none => rfl
  | some t => exact if_pos (h t hlast)

/-- Memory that goes on makes the last task longer. -/
theorem TaskArray.add_meets (hlast : a.tasks.getLast? = some t) (hmeets : kuaddr = t.kuaddr + t.size) : a.add kuaddr size =
    (⟨a.tasks.dropLast ++ [⟨t.kuaddr, t.size + size⟩], a.stores ++ [a.tasks.length - 1]⟩, true) := by
  unfold TaskArray.add
  rw [hlast]
  exact if_neg (not_not.mpr hmeets)

/-- The array has what `addTask` makes. -/
theorem TaskArray.add_tasks (a : TaskArray) (kuaddr size : Nat) : addTask a.tasks kuaddr size =
    bif (a.add kuaddr size).2 then some (a.add kuaddr size).1.tasks else none := by
  unfold addTask
  cases hlast : a.tasks.getLast? with
  | none =>
      rw [TaskArray.add_fresh (by simp [hlast]), List.getLast?_eq_none_iff.mp hlast]
      rfl
  | some t =>
      dsimp only
      by_cases hmeets : kuaddr = t.kuaddr + t.size
      · rw [TaskArray.add_meets hlast hmeets, if_neg (not_not.mpr hmeets)]
        rfl
      · rw [TaskArray.add_fresh (by simpa [hlast] using hmeets), if_pos hmeets]
        by_cases hfull : a.tasks.length + 1 > novaAgentTaskMaxSize
        · simp [hfull]
        · simp [hfull]

theorem apart_concat : (tasks ++ [t]).IsChain AgentTask.Apart ↔
    tasks.IsChain AgentTask.Apart ∧ ∀ u ∈ tasks.getLast?, u.Apart t := by
  rw [List.isChain_append]
  simp

theorem fillTasks_tasks {uaddrEnd : Nat} (a : TaskArray) (hend : uaddrEnd < 2 ^ 64) (hleft : i + left = uaddrEnd) :
    createTasksLoop env uaddrEnd fuel i left a.tasks =
      bif (fillTasks env uaddrEnd fuel i left a).2 then some (fillTasks env uaddrEnd fuel i left a).1.tasks else none := by
  induction fuel generalizing i left a with
  | zero => rfl
  | succ fuel ih =>
      unfold createTasksLoop fillTasks
      by_cases hmore : i < uaddrEnd
      · rw [if_pos hmore, if_pos hmore]
        dsimp only
        by_cases hphys : userVirtAddrToPhyAddr env i = 0
        · rw [if_pos hphys, if_pos hphys]
          rfl
        · rw [if_neg hphys, if_neg hphys, a.add_tasks]
          cases a.add (userVirtAddrToPhyAddr env i) (min (4096 - i % 4096) left) with
          | mk a' ok =>
              cases ok with
              | false => rfl
              | true =>
                  dsimp only [cond_true]
                  rw [Nat.mod_eq_of_lt (show i + min (4096 - i % 4096) left < 2 ^ 64 by omega)]
                  exact ih a' (by omega)
      · rw [if_neg hmore, if_neg hmore]
        rfl

/-- **Where addresses do not wrap it is `createAgentTasks`.** -/
theorem createAgentTasksIn_tasks (hwrap : uaddr + bytes < 2 ^ 64) : createAgentTasks env uaddr bytes =
    bif (createAgentTasksIn env uaddr bytes).2 then some (createAgentTasksIn env uaddr bytes).1.tasks else none := by
  unfold createAgentTasks createAgentTasksIn
  rw [Nat.mod_eq_of_lt hwrap]
  exact fillTasks_tasks ⟨[], []⟩ hwrap rfl

/-- Where the last task ends. -/
def tasksEnd (tasks : List AgentTask) : Option Nat := tasks.getLast?.map fun t => t.kuaddr + t.size

/-- The tasks of the buffer up to `i`. -/
structure Filling (env : AgentEnv) (uaddr i : Nat) (a : TaskArray) : Prop where
  inArray : ∀ k ∈ a.stores, k < novaAgentTaskMaxSize
  few : a.tasks.length ≤ novaAgentTaskMaxSize
  size : tasksSize a.tasks = i - uaddr
  exact : ∀ j < i - uaddr, taskAddr a.tasks j = some (userVirtAddrToPhyAddr env (uaddr + j))
  apart : a.tasks.IsChain AgentTask.Apart

/-- A piece of a page more: when it goes on with the last task there are as many tasks as before, else
one more, which is stored. -/
theorem TaskArray.add_last (a : TaskArray) (kuaddr size : Nat) :
    tasksEnd (a.add kuaddr size).1.tasks = some (kuaddr + size) ∧
      (tasksEnd a.tasks = some kuaddr ∧ (a.add kuaddr size).2 = true ∧
          (a.add kuaddr size).1.tasks.length = a.tasks.length ∧
          (a.add kuaddr size).1.stores = a.stores ++ [a.tasks.length - 1] ∧ a.tasks ≠ [] ∨
        tasksEnd a.tasks ≠ some kuaddr ∧ ((a.add kuaddr size).2 = true ↔ a.tasks.length < novaAgentTaskMaxSize) ∧
          (a.add kuaddr size).1.tasks.length = a.tasks.length + 1 ∧
          (a.add kuaddr size).1.stores = a.stores ++ [a.tasks.length]) := by
  by_cases hmeets : tasksEnd a.tasks = some kuaddr
  · obtain ⟨t, hlast, hend⟩ := Option.map_eq_some_iff.mp hmeets
    have hne : a.tasks ≠ [] := fun hnil => by simp [hnil] at hlast
    have hpos := List.length_pos_of_ne_nil hne
    rw [TaskArray.add_meets hlast hend.symm]
    refine ⟨?_, Or.inl ⟨hmeets, rfl, ?_, rfl, hne⟩⟩
    · unfold tasksEnd
      rw [List.getLast?_concat, ← hend, Nat.add_assoc]
      rfl
    · rw [List.length_append, List.length_dropLast, List.length_singleton]
      exact Nat.sub_add_cancel hpos
  · rw [TaskArray.add_fresh fun t ht heq => hmeets (by unfold tasksEnd; rw [Option.mem_def.mp ht, heq]; rfl)]
    refine ⟨?_, Or.inr ⟨hmeets, ?_, List.length_append, rfl⟩⟩
    · unfold tasksEnd
      rw [List.getLast?_concat]
      rfl
    · simp [Nat.succ_le_iff]

theorem TaskArray.add_apart (h : a.tasks.IsChain AgentTask.Apart) : (a.add kuaddr size).1.tasks.IsChain AgentTask.Apart := by
  by_cases hmeets : ∃ t, a.tasks.getLast? = some t ∧ kuaddr = t.kuaddr + t.size
  · obtain ⟨t, hlast, hmeets⟩ := hmeets
    rw [TaskArray.add_meets hlast hmeets]
    rw [← List.dropLast_append_getLast? t hlast] at h
    obtain ⟨hbefore, happart⟩ := apart_concat.mp h
    exact apart_concat.mpr ⟨hbefore, happart⟩
  · rw [TaskArray.add_fresh fun t ht heq => hmeets ⟨t, ht, heq⟩]
    exact apart_concat.mpr ⟨h, fun t ht heq => hmeets ⟨t, ht, heq⟩⟩

/-- The tasks of the buffer, a page further. -/
theorem Filling.add (h : Filling env uaddr i a) (hlo : uaddr ≤ i) (hphys : userVirtAddrToPhyAddr env i ≠ 0)
    (hsize : i % 4096 + size ≤ 4096) (hok : (a.add (userVirtAddrToPhyAddr env i) size).2 = true) :
    Filling env uaddr (i + size) (a.add (userVirtAddrToPhyAddr env i) size).1 := by
  have hadd := a.add_tasks (userVirtAddrToPhyAddr env i) size
  rw [hok, cond_true] at hadd
  obtain ⟨hsum, -, hspec⟩ := addTask_spec hadd
  have hfew := h.few
  have hsz := h.size
  have hcases := (a.add_last (userVirtAddrToPhyAddr env i) size).2
  refine ⟨?_, ?_, by omega, fun j hj => ?_, TaskArray.add_apart h.apart⟩
  · intro k hk
    rcases hcases with ⟨-, -, -, hstores, hne⟩ | ⟨-, hiff, -, hstores⟩
    · have hpos := List.length_pos_of_ne_nil hne
      rw [hstores] at hk
      rcases List.mem_append.mp hk with hk | hk
      · exact h.inArray k hk
      · rw [List.mem_singleton.mp hk]
        omega
    · have hlt := hiff.mp hok
      rw [hstores] at hk
      rcases List.mem_append.mp hk with hk | hk
      · exact h.inArray k hk
      · rw [List.mem_singleton.mp hk]
        exact hlt
  · rcases hcases with ⟨-, -, hlen, -⟩ | ⟨-, hiff, hlen, -⟩
    · omega
    · have hlt := hiff.mp hok
      omega
  · rw [hspec j (by omega), hsz]
    by_cases hj' : j < i - uaddr
    · rw [if_pos hj']
      exact h.exact j hj'
    · rw [if_neg hj', ← userVirtAddrToPhyAddr_page hphys (by omega)]
      congr 2
      omega

/-- Whether the memory of a page goes on with the last task. -/
theorem tasksEnd_iff (hprev : tasksEnd a.tasks = prev.map (4096 * ·)) (hstart : prev ≠ none → i % 4096 = 0)
    (hphys : userVirtAddrToPhyAddr env i ≠ 0) :
    tasksEnd a.tasks = some (userVirtAddrToPhyAddr env i) ↔ env.pte (i / 4096) = prev := by
  rw [hprev]
  unfold userVirtAddrToPhyAddr at hphys ⊢
  cases hpte : env.pte (i / 4096) with
  | none =>
      rw [hpte] at hphys
      exact absurd rfl hphys
  | some pfn =>
      cases prev with
      | none => exact ⟨nofun, nofun⟩
      | some k =>
          rw [hstart (Option.some_ne_none k)]
          simp only [Option.map_some, Option.some.injEq]
          omega

theorem Filling.right (hend : i = uaddr + bytes) (h : Filling env uaddr i a) : TasksRight env uaddr bytes (a, true) where
  inArray := h.inArray
  few := fun _ => h.few
  size := by
    have hsize := h.size
    intro _
    dsimp only
    omega
  exact := fun _ j hj => h.exact j (by omega)
  apart := fun _ => h.apart

/-- From a page on. -/
theorem fillTasks_spec (hwrap : uaddr + bytes < 2 ^ 64) (h : Filling env uaddr i a) (hlo : uaddr ≤ i)
    (hleft : i + left = uaddr + bytes) (hstart : i = uaddr ∨ i % 4096 = 0) (hfirst : prev ≠ none → i % 4096 = 0)
    (hprev : i < uaddr + bytes → tasksEnd a.tasks = prev.map (4096 * ·))
    (hfuel : i < uaddr + bytes → (uaddr + bytes - 1) / 4096 - i / 4096 < fuel) (ps : List Nat)
    (hps : ps = if i < uaddr + bytes then List.range' (i / 4096) ((uaddr + bytes - 1) / 4096 + 1 - i / 4096) else []) :
    let n := a.tasks.length + physPieces env prev (ps.takeWhile fun p => userVirtAddrToPhyAddr env (max uaddr (4096 * p)) ≠ 0)
    (n ≤ novaAgentTaskMaxSize → TasksRight env uaddr bytes (fillTasks env (uaddr + bytes) fuel i left a)) ∧
      (novaAgentTaskMaxSize < n → novaAgentTaskMaxSize ∈ (fillTasks env (uaddr + bytes) fuel i left a).1.stores) := by
  induction fuel generalizing i left a prev ps with
  | zero =>
      have hend : ¬ i < uaddr + bytes := fun hlt => absurd (hfuel hlt) (Nat.not_lt_zero _)
      have hfew := h.few
      rw [if_neg hend] at hps
      subst hps
      exact ⟨fun _ => Filling.right (show i = uaddr + bytes by omega) h, fun hlt => absurd hlt (Nat.not_lt.mpr hfew)⟩
  | succ fuel ih =>
      have hfew := h.few
      unfold fillTasks
      by_cases hmore : i < uaddr + bytes
      · have hlast := hfuel hmore
        have hpage : max uaddr (4096 * (i / 4096)) = i := by omega
        rw [if_pos hmore, show (uaddr + bytes - 1) / 4096 + 1 - i / 4096 = (uaddr + bytes - 1) / 4096 - i / 4096 + 1 by omega,
          List.range'_succ] at hps
        rw [if_pos hmore]
        dsimp only
        by_cases hphys : userVirtAddrToPhyAddr env i = 0
        · -- the page is missing
          rw [if_pos hphys, hps, List.takeWhile_cons_of_neg (by simp [hpage, hphys])]
          exact ⟨fun _ => ⟨h.inArray, nofun, nofun, nofun, nofun⟩, fun hlt => absurd hlt (Nat.not_lt.mpr hfew)⟩
        · obtain ⟨size, hsz⟩ : ∃ size, size = min (4096 - i % 4096) left := ⟨_, rfl⟩
          obtain ⟨hend, hcases⟩ := a.add_last (userVirtAddrToPhyAddr env i) size
          have hiff := tasksEnd_iff (hprev hmore) hfirst hphys
          rw [if_neg hphys, ← hsz, hps, List.takeWhile_cons_of_pos (by simp [hpage, hphys]), physPieces]
          have hcount : (a.add (userVirtAddrToPhyAddr env i) size).1.tasks.length =
              a.tasks.length + if env.pte (i / 4096) = prev then 0 else 1 := by
            rcases hcases with ⟨hmeets, -, hlen, -⟩ | ⟨hmeets, -, hlen, -⟩
            · rw [if_pos (hiff.mp hmeets), hlen]
              rfl
            · rw [if_neg fun heq => hmeets (hiff.mpr heq), hlen]
          rw [← Nat.add_assoc, ← hcount]
          cases hadd : a.add (userVirtAddrToPhyAddr env i) size with
          | mk a' ok =>
              rw [hadd] at hend hcases hcount
              cases ok with
              | false =>
                  -- the array was full
                  rcases hcases with ⟨-, hok, -⟩ | ⟨-, hok, hlen, hstores⟩
                  · cases hok
                  · have hfull : ¬ a.tasks.length < novaAgentTaskMaxSize := fun hlt => absurd (hok.mpr hlt) Bool.false_ne_true
                    refine ⟨fun hle => ?_, fun _ => ?_⟩
                    · dsimp only at hle hlen
                      omega
                    · rw [hstores, show a.tasks.length = novaAgentTaskMaxSize by omega]
                      exact List.mem_append_right _ (List.mem_singleton_self _)
              | true =>
                  have hnext := h.add hlo hphys (show i % 4096 + size ≤ 4096 by omega) (by rw [hadd])
                  rw [hadd] at hnext
                  dsimp only at hend ⊢
                  rw [Nat.mod_eq_of_lt (by omega)]
                  have hround : i + size < uaddr + bytes → i % 4096 + size = 4096 := by omega
                  by_cases hmore' : i + size < uaddr + bytes
                  · refine ih hnext (by omega) (by omega) (Or.inr (by omega)) (fun _ => by omega) (fun _ => ?_)
                      (fun _ => by omega) _ ?_
                    · rw [hend]
                      unfold userVirtAddrToPhyAddr at hphys ⊢
                      cases hpte : env.pte (i / 4096) with
                      | none =>
                          rw [hpte] at hphys
                          exact absurd rfl hphys
                      | some pfn =>
                          simp only [Option.map_some, Option.some.injEq]
                          omega
                    · rw [if_pos hmore', show (i + size) / 4096 = i / 4096 + 1 by omega]
                      congr 1
                      omega
                  · have hnil : (uaddr + bytes - 1) / 4096 - i / 4096 = 0 := by omega
                    have hfew' := hnext.few
                    have hstop : fillTasks env (uaddr + bytes) fuel (i + size) (left - size) a' = (a', true) := by
                      cases fuel with
                      | zero => rfl
                      | succ fuel =>
                          unfold fillTasks
                          rw [if_neg hmore']
                    rw [hstop, hnil]
                    exact ⟨fun _ => Filling.right (by omega) hnext, fun hlt => absurd hlt (Nat.not_lt.mpr hfew')⟩
      · rw [if_neg hmore] at hps ⊢
        subst hps
        exact ⟨fun _ => Filling.right (by omega) h, fun hlt => absurd hlt (Nat.not_lt.mpr hfew)⟩

/-- **The tasks of a read request** are right if and only if the buffer ends below the last address
and what there is of it is in no more than twelve pieces. -/
theorem createAgentTasks_right_iff (huaddr : uaddr < 2 ^ 64) (hbytes : ∃ size ∈ blkTypeToSize, bytes ≤ size) :
    TasksRight env uaddr bytes (createAgentTasksIn env uaddr bytes) ↔
      uaddr + bytes < 2 ^ 64 ∧ physPieces env none (foundPages env uaddr bytes) ≤ novaAgentTaskMaxSize := by
  have hlarge : bytes ≤ 0x40000000 := by
    obtain ⟨size, hsize, hle⟩ := hbytes
    have hmax : ∀ size ∈ blkTypeToSize, size ≤ 0x40000000 := by decide
    exact hle.trans (hmax size hsize)
  unfold createAgentTasksIn
  by_cases hwrap : uaddr + bytes < 2 ^ 64
  · have hstart : Filling env uaddr uaddr ⟨[], []⟩ :=
      ⟨nofun, Nat.zero_le _, (Nat.sub_self _).symm, fun j hj => by omega, .nil⟩
    obtain ⟨hright, hwrong⟩ := fillTasks_spec hwrap hstart le_rfl rfl (Or.inl rfl) (fun h => absurd rfl h) (fun _ => rfl)
      (show uaddr < uaddr + bytes → (uaddr + bytes - 1) / 4096 - uaddr / 4096 < bytes / 4096 + 2 by omega) _ rfl
    rw [Nat.mod_eq_of_lt hwrap]
    rw [List.length_nil, Nat.zero_add] at hright hwrong
    by_cases hsome : uaddr < uaddr + bytes
    · have hpages : (uaddr + bytes - 1) / 4096 + 1 - uaddr / 4096 = writeNumBlocks uaddr bytes := by
        unfold writeNumBlocks
        omega
      rw [if_pos hsome, hpages] at hright hwrong
      refine ⟨fun h => ⟨hwrap, ?_⟩, fun h => hright h.2⟩
      by_contra hmany
      exact absurd (h.inArray _ (hwrong (Nat.lt_of_not_le hmany))) (lt_irrefl _)
    · rw [if_neg hsome] at hright
      refine ⟨fun _ => ⟨hwrap, ?_⟩, fun _ => hright (Nat.zero_le _)⟩
      have hone : writeNumBlocks uaddr bytes = 1 := by
        unfold writeNumBlocks
        omega
      unfold foundPages
      rw [hone, List.range'_one, List.takeWhile_cons]
      split
      · rw [List.takeWhile_nil, physPieces, physPieces]
        split <;> decide
      · exact Nat.zero_le _
  · -- the end is before the beginning
    refine ⟨fun h => ?_, fun h => absurd h.1 hwrap⟩
    have hend : fillTasks env ((uaddr + bytes) % 2 ^ 64) (bytes / 4096 + 2) uaddr bytes ⟨[], []⟩ = (⟨[], []⟩, true) := by
      unfold fillTasks
      rw [if_neg (by omega)]
    rw [hend] at h
    have hsize : 0 = bytes := h.size rfl
    omega

/-- Every page in the next frame but one. -/
def scattered : AgentEnv := ⟨fun p => some (2 * p), fun _ => 0⟩

theorem createAgentTasks_right_iff_twelve :
    4096 < 2 ^ 64 ∧ (∃ size ∈ blkTypeToSize, 49152 ≤ size) ∧
      (TasksRight scattered 4096 49152 (createAgentTasksIn scattered 4096 49152) ↔
        4096 + 49152 < 2 ^ 64 ∧ physPieces scattered none (foundPages scattered 4096 49152) ≤ novaAgentTaskMaxSize) :=
  ⟨by decide, by decide, createAgentTasks_right_iff (by decide) (by decide)⟩

/-- Of thirteen pages one is stored behind the array. -/
theorem createAgentTasks_overflows : (∃ size ∈ blkTypeToSize, 53248 ≤ size) ∧
    ¬ TasksRight scattered 4096 53248 (createAgentTasksIn scattered 4096 53248) := by
  refine ⟨by decide, fun h => absurd (h.inArray 12 ?_) (by decide)⟩
  decide +kernel

end

end Parfs
