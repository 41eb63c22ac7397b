/-
Which transaction recovery takes for the last one.

The scan compares every write entry's `trans_id` with the one in the header and remembers
where it changed.  The header is the thread's, so the first entries of a log are compared
with what the log before has left.
-/
import Parfs.Proofs.Recovery

namespace Parfs

open Lib ByteMem

/-- The write entries of the last transaction. -/
def lastTransaction (m : ByteMem) (visited : List Nat) : List Nat :=
  lastRun (transIdOf m) (writesOf m visited)

/-- `trans_id` of the last write entry. -/
def lastTransId (m : ByteMem) (visited : List Nat) : Nat :=
  ((writesOf m visited).getLast?.map (transIdOf m)).getD 0

/-- The largest page offset of the write entries that count. -/
def lastPage (m : ByteMem) (visited : List Nat) : Nat :=
  visited.foldl (fun last p => max last (entryLast m p)) 0

/-- The place behind the last entry. -/
def lastEnd (m : ByteMem) : Nat → List Nat → Nat
  | curr, [] => curr
  | _, p :: rest => lastEnd m (p + entrySize m p) rest

/-- The scan has found the start of the last transaction, and its data blocks were the ones
verified. -/
def IdentifiesTransaction (env : RecoverEnv) (m : ByteMem) (visited : List Nat) (pass : TraversePass) :
    Prop :=
  (lastTransaction m visited).head? = some pass.transCurr ∧
    pass.checked = some (verified env.verifyDataCsum ((lastTransaction m visited).flatMap (entryBlocks m)))

section

variable {env : RecoverEnv} {m m' : ByteMem} {head stop p r₀ curr currP base fuel : Nat}
  {visited rest before : List Nat} {t t' : Traverse}

/-! ### What stays when entries are dropped -/

theorem LogImage.transIdOf_same (h : LogImage m head visited stop) (hsame : SameLog m m' visited)
    (hp : p ∈ visited) (hw : IsWrite m p) : transIdOf m' p = transIdOf m p := by
  have htrans := congrArg NovaFileWriteEntry.transId (h.wentry_same hsame hp hw)
  exact htrans

theorem LogImage.entryBlocks_same (h : LogImage m head visited stop) (hsame : SameLog m m' visited)
    (hp : p ∈ visited) (hw : IsWrite m p) : entryBlocks m' p = entryBlocks m p := by
  have hentry := h.wentry_same hsame hp hw
  have hnum := congrArg NovaFileWriteEntry.numPages hentry
  have hblock := congrArg NovaFileWriteEntry.blocknr hentry
  have hpgoff := congrArg NovaFileWriteEntry.pgoff hentry
  simp only at hnum hblock hpgoff
  simp only [entryBlocks, getNvmm, hnum, hblock, hpgoff]

theorem LogImage.writesOf_same (h : LogImage m head visited stop) (hsame : SameLog m m' visited)
    (hsub : rest ⊆ visited) : writesOf m' rest = writesOf m rest := by
  unfold writesOf
  refine List.filter_congr fun p hp => ?_
  have hiff := isWrite_same hsame (h.outside_entry (hsub hp))
  exact decide_eq_decide.mpr hiff

theorem mem_writesOf : p ∈ writesOf m visited ↔ p ∈ visited ∧ IsWrite m p := by
  simp [writesOf]

theorem LogImage.foldl_trackRun_same (h : LogImage m head visited stop) (hsame : SameLog m m' visited)
    (ps : List Nat) (hsub : ps ⊆ writesOf m visited) (s : Nat × Nat) :
    ps.foldl (trackRun (transIdOf m')) s = ps.foldl (trackRun (transIdOf m)) s := by
  induction ps generalizing s with
  | nil => simp only [List.foldl_nil]
  | cons p ps ih =>
      have hmem : p ∈ writesOf m visited := hsub List.mem_cons_self
      obtain ⟨hp, hw⟩ := mem_writesOf.mp hmem
      have hstep : trackRun (transIdOf m') s p = trackRun (transIdOf m) s p := by
        rw [trackRun, trackRun, h.transIdOf_same hsame hp hw]
      rw [List.foldl_cons, List.foldl_cons, hstep]
      exact ih (fun q hq => hsub (List.mem_cons_of_mem _ hq)) _

theorem LogImage.transBlocks_same (h : LogImage m head visited stop) (hsame : SameLog m m' visited)
    (hsub : rest ⊆ visited) : transBlocks m' rest = transBlocks m rest := by
  rw [transBlocks, transBlocks, h.writesOf_same hsame hsub]
  refine List.flatMap_congr fun p hp => ?_
  obtain ⟨hp, hw⟩ := mem_writesOf.mp hp
  exact h.entryBlocks_same hsame (hsub hp) hw

/-! ### The last transaction in the log -/

/-- Entries in different places, from the start of the last transaction on. -/
theorem split_lastTransaction (hnodup : visited.Nodup) (hw : writesOf m visited ≠ []) :
    ∃ before r₀ rest, visited = before ++ r₀ :: rest ∧ IsWrite m r₀ ∧
      lastTransaction m visited = writesOf m (r₀ :: rest) ∧ transIdOf m r₀ = lastTransId m visited := by
  obtain ⟨b, hb⟩ := lastRun_suffix (transIdOf m) (writesOf m visited)
  have hne : lastRun (transIdOf m) (writesOf m visited) ≠ [] := lastRun_ne_nil hw
  obtain ⟨r₀, run, hrun⟩ := List.exists_cons_of_ne_nil hne
  rw [hrun] at hb
  have hmem : r₀ ∈ writesOf m visited := by
    rw [hb]
    simp
  obtain ⟨hvis, hwrite⟩ := mem_writesOf.mp hmem
  obtain ⟨before, rest, rfl⟩ := List.append_of_mem hvis
  have hsplit : writesOf m (before ++ r₀ :: rest) = writesOf m before ++ r₀ :: writesOf m rest := by
    rw [writesOf, List.filter_append]
    exact congrArg _ (writesOf_write hwrite)
  have hfilter : (writesOf m (before ++ r₀ :: rest)).Nodup := hnodup.filter _
  rw [hsplit] at hfilter
  have hnot := List.nodup_append.mp hfilter
  have hcons := List.nodup_cons.mp hnot.2.1
  obtain ⟨-, -, htail⟩ := (List.append_cons_inj_of_notMem
    (fun hin => hnot.2.2 r₀ hin r₀ List.mem_cons_self rfl) hcons.1).mp (hsplit.symm.trans hb)
  refine ⟨before, r₀, rest, rfl, hwrite, ?_, ?_⟩
  · rw [lastTransaction, hrun, writesOf_write hwrite, htail]
  · have hkey := key_of_mem_lastRun (hrun ▸ List.mem_cons_self : r₀ ∈ lastRun (transIdOf m) (writesOf m (before ++ r₀ :: rest)))
    rw [lastTransId, hkey]
    rfl

/-- The log from the start of its last transaction on. -/
theorem LogImage.split (h : LogImage m head visited stop) (hw : writesOf m visited ≠ []) :
    ∃ before r₀ rest, visited = before ++ r₀ :: rest ∧ IsWrite m r₀ ∧
      lastTransaction m visited = writesOf m (r₀ :: rest) ∧ transIdOf m r₀ = lastTransId m visited :=
  split_lastTransaction h.nodup hw

theorem LogImage.lastTransaction_same (h : LogImage m head visited stop) (hsame : SameLog m m' visited) :
    lastTransaction m' visited = lastTransaction m visited := by
  rw [lastTransaction, h.writesOf_same hsame fun _ hp => hp]
  refine lastRun_congr fun p hp => ?_
  obtain ⟨hp, hw⟩ := mem_writesOf.mp hp
  exact h.transIdOf_same hsame hp hw

/-! ### Walks over the last transaction -/

theorem lastEnd_append (before : List Nat) (r₀ : Nat) (rest : List Nat) (curr : Nat) :
    lastEnd m curr (before ++ r₀ :: rest) = lastEnd m r₀ (r₀ :: rest) := by
  induction before generalizing curr with
  | nil => rfl
  | cons p before ih => exact ih _

/-- A walk that is to end where the scan stopped takes all entries. -/
theorem ScanPath.walked_all (h : ScanPath m stop curr rest)
    (hcurr : curr % 4096 ≠ 0 ∨ rest.head? = some curr) :
    walked m stop curr rest = (rest, decide (lastEnd m curr rest ≠ stop)) := by
  induction h with
  | stop => rfl
  | @entry curr p rest hfrom hne hpage hsize hfit hpages hrest ih =>
      have hok : EntryOk m p := ⟨hne, hsize, hfit, hpages⟩
      have hstart : curr % 4096 ≠ 0 ∨ curr = p := by
        rcases hcurr with h | h
        · exact Or.inl h
        · exact Or.inr (Option.some.inj h).symm
      have hnot := (ScanPath.entry hfrom hne hpage hsize hfit hpages hrest).ne_stop hstart
      rw [walked, if_neg hnot, ih (Or.inl hok.end_ne)]
      rfl

/-- A walk that never comes to the place where it is to end takes all entries. -/
theorem walked_none (rest : List Nat) (hcurr : curr ≠ currP)
    (h : ∀ q ∈ rest, q + entrySize m q ≠ currP) : walked m currP curr rest = (rest, true) := by
  induction rest generalizing curr with
  | nil => simp [walked, hcurr]
  | cons p rest ih =>
      rw [walked, if_neg hcurr, ih (h p List.mem_cons_self) fun q hq => h q (List.mem_cons_of_mem _ hq)]

/-- What a window leaves of a file's log and of the variables for the next one. -/
structure Kept (t t' : Traverse) (visited : List Nat) : Prop where
  same : SameLog t.mem t'.mem visited
  head : t'.pi.logHead = t.pi.logHead
  tail : t'.pi.logTail = t.pi.logTail
  transId : t'.transId = t.transId
  transCurr : t'.transCurr = t.transCurr
  lastBlocknr : t'.lastBlocknr = t.lastBlocknr

/-- **The last transaction is verified, and dropped when a block fails.** -/
theorem latestTransaction_eq (env : RecoverEnv) (base currP : Nat) (himage : LogImage t.mem head (before ++ r₀ :: rest) stop)
    (hcurr : t.transCurr = r₀) (hckpt : ckptId ≠ t.transId) (hfuel : rest.length + 1 < fuel) :
    ∃ t', latestTransaction env fuel base t currP = .ok (t', ⟨r₀, some (verified env.verifyDataCsum
        (transBlocks t.mem (walked t.mem currP r₀ (r₀ :: rest)).1))⟩) ∧
      Kept t t' (before ++ r₀ :: rest) ∧ t'.loopEnd = (walked t.mem currP r₀ (r₀ :: rest)).2 := by
  subst hcurr
  have hpath := himage.path.suffix
  have hr₀ : t.transCurr ∈ before ++ t.transCurr :: rest := by simp
  have hsub : t.transCurr :: rest ⊆ before ++ t.transCurr :: rest := List.subset_append_right _ _
  rw [latestTransaction, if_pos hckpt, checkTransaction_eq hpath fuel hfuel]
  generalize hw : walked t.mem currP t.transCurr (t.transCurr :: rest) = w
  simp only [Except.bind]
  cases hall : (transBlocks t.mem w.1).all env.verifyDataCsum with
  | true =>
      simp only [Bool.not_true, Bool.false_eq_true, if_false, Bool.false_or]
      exact ⟨_, rfl, ⟨SameLog.refl, rfl, rfl, rfl, rfl, rfl⟩, rfl⟩
  | false =>
      simp only [Bool.not_false, if_true]
      generalize hs : ({ t with
        pi := { t.pi with recoveryLatestTransInvalid := true }, loopEnd := false } : Traverse) = s
      simp only at hs
      have hmem : s.mem = t.mem := by rw [← hs]
      have hclear := clearTransaction_eq base currP (t.transCurr :: rest) (t := s)
        (hmem ▸ himage) (hmem ▸ hpath) (hmem ▸ himage.outside_entry hr₀) hsub fuel hfuel
      have hsame := cleared_same base w.1 (t := s) (hmem ▸ himage) (by
        rw [← hw]
        exact fun q hq => hsub (walked_subset _ _ hq))
      obtain ⟨hpi, htrans, hcurr, hlast, hloop⟩ := cleared_vars base w.1 s
      rw [hclear, hmem, hw]
      simp only [Except.map]
      refine ⟨_, rfl, ⟨?_, ?_, ?_, ?_, ?_, ?_⟩, ?_⟩
      · rw [← hmem]
        exact hsame
      · rw [hpi, ← hs]
      · rw [hpi, ← hs]
      · rw [htrans, ← hs]
      · rw [hcurr, ← hs]
      · rw [hlast, ← hs]
      · simp only [← hs, Bool.or_false]

/-! ### One window -/

/-- A window is its scan, the verification and the marking of what is in use. -/
theorem traversePass_eq (visited : List Nat) {t₁ ts tl : Traverse} {pass : TraversePass}
    (hhead : t.pi.logHead % 4096 = 0)
    (hstart : t₁ = if base = 0 then { t with bm := setBm t.bm (t.pi.logHead / 4096) } else t)
    (hscan : traverseScan base fuel t₁ t.pi.logHead = .ok (ts, currP))
    (hlatest : latestTransaction env fuel base { ts with pi := { ts.pi with logTail := currP } } currP =
      .ok (tl, pass))
    (hmark : base = 0 → ∃ bm, markChain tl.mem fuel tl.bm (blockOff currP) = .ok bm) :
    ∃ t', traversePass env fuel base t = .ok (t', pass) ∧ Kept tl t' visited ∧
      t'.loopEnd = tl.loopEnd := by
  have hmarked : ∃ bm, (if base = 0 then markChain tl.mem fuel tl.bm (blockOff currP) else .ok tl.bm) =
      .ok bm := by
    by_cases hbase : base = 0
    · rw [if_pos hbase]
      exact hmark hbase
    · rw [if_neg hbase]
      exact ⟨_, rfl⟩
  obtain ⟨bm, hmarked⟩ := hmarked
  refine ⟨{ tl with toRecovery := novaSetFileBm { tl.toRecovery with bm := bm } base tl.lastBlocknr },
    ?_, ⟨?_, rfl, rfl, ?_, rfl, rfl⟩, rfl⟩
  · rw [traversePass]
    simp only [hhead, ne_eq, not_true_eq_false, and_false, if_false, ← hstart, hscan, Except.bind,
      hlatest, hmarked, Except.map]
  · simp only [novaSetFileBm]
    exact SameLog.refl
  · simp only [novaSetFileBm]

theorem Traverse.start_eq (hstart : t' = if base = 0 then { t with bm := setBm t.bm p } else t) :
    t'.mem = t.mem ∧ t'.pi = t.pi ∧ t'.transId = t.transId ∧ t'.transCurr = t.transCurr ∧
      t'.lastBlocknr = t.lastBlocknr ∧ t'.loopEnd = t.loopEnd := by
  subst hstart
  by_cases hbase : base = 0
  · rw [if_pos hbase]
    exact ⟨rfl, rfl, rfl, rfl, rfl, rfl⟩
  · rw [if_neg hbase]
    exact ⟨rfl, rfl, rfl, rfl, rfl, rfl⟩

/-- What a window finds, and what it leaves for the next one. -/
structure Window (t t' : Traverse) (visited : List Nat) (tail transId transCurr last : Nat)
    (loopEnd : Bool) : Prop where
  same : SameLog t.mem t'.mem visited
  head : t'.pi.logHead = t.pi.logHead
  tail : t'.pi.logTail = tail
  transId : t'.transId = transId
  transCurr : t'.transCurr = transCurr
  lastBlocknr : t'.lastBlocknr = last
  loopEnd : t'.loopEnd = loopEnd

/-- A window of which the scan and its variables are known. -/
theorem LogImage.window (env : RecoverEnv) {t₁ ts : Traverse} (himage : LogImage t.mem t.pi.logHead (before ++ r₀ :: rest) stop)
    (hstart : t₁ = if base = 0 then { t with bm := setBm t.bm (t.pi.logHead / 4096) } else t)
    (hscan : traverseScan base fuel t₁ t.pi.logHead = .ok (ts, currP)) (hmem : ts.mem = t.mem)
    (hpi : ts.pi = t.pi) (hcurr : ts.transCurr = r₀) (hckpt : ckptId ≠ ts.transId)
    (hfuel : rest.length + 1 < fuel)
    (hbase : base = 0 → currP = stop ∧ ∃ pages : List Nat, pages.length < fuel ∧
      LinkedTo t.mem 0 (blockOff stop :: pages) ∧ ∀ p ∈ pages, IsPage p) :
    ∃ t', traversePass env fuel base t = .ok (t', ⟨r₀, some (verified env.verifyDataCsum
        (transBlocks t.mem (walked t.mem currP r₀ (r₀ :: rest)).1))⟩) ∧
      Window t t' (before ++ r₀ :: rest) currP ts.transId r₀ ts.lastBlocknr
        (walked t.mem currP r₀ (r₀ :: rest)).2 := by
  obtain ⟨tl, hlatest, hkept, hloop⟩ := latestTransaction_eq env base currP
    (t := { ts with pi := { ts.pi with logTail := currP } }) (hmem ▸ himage) hcurr hckpt hfuel
  have hsame : SameLog t.mem tl.mem (before ++ r₀ :: rest) := hmem ▸ hkept.same
  have hmark : base = 0 → ∃ bm, markChain tl.mem fuel tl.bm (blockOff currP) = .ok bm := by
    intro hb
    obtain ⟨rfl, pages, hlen, hlink, hpages⟩ := hbase hb
    have halign : blockOff currP % 4096 = 0 := by
      unfold blockOff
      omega
    have hlink' : LinkedTo tl.mem 0 (blockOff currP :: pages) := by
      refine hlink.congr fun p hp => himage.nextPage_same hsame ?_
      rcases List.mem_cons.mp hp with rfl | hp
      · exact halign
      · exact (hpages p hp).1
    exact ⟨_, markChain_eq pages tl.bm hlink' halign hpages fuel hlen⟩
  obtain ⟨t', hpass, hkept', hloop'⟩ :=
    traversePass_eq (before ++ r₀ :: rest) himage.start.2 hstart hscan hlatest hmark
  simp only [hmem] at hpass hloop
  refine ⟨t', hpass, ⟨?_, ?_, ?_, ?_, ?_, ?_, ?_⟩⟩
  · exact SameLog.trans himage hsame hkept'.same
  · rw [hkept'.head, hkept.head, hpi]
  · rw [hkept'.tail, hkept.tail]
  · rw [hkept'.transId, hkept.transId]
  · rw [hkept'.transCurr, hkept.transCurr, hcurr]
  · rw [hkept'.lastBlocknr, hkept.lastBlocknr]
  · rw [hloop', hloop]

/-- Bound on the steps of every loop of a window. -/
structure FuelOk (m : ByteMem) (visited : List Nat) (stop fuel : Nat) : Prop where
  visited : visited.length < fuel
  pages : ∃ pages : List Nat, pages.length < fuel ∧ LinkedTo m 0 (blockOff stop :: pages) ∧
    ∀ p ∈ pages, IsPage p

/-- **A window that scans the whole log.** -/
theorem LogImage.wholeWindow (env : RecoverEnv) (base : Nat) {transId : Nat}
    (himage : LogImage t.mem t.pi.logHead (before ++ r₀ :: rest) stop) (hloop : t.loopEnd = false)
    (htrans : (writesOf t.mem (before ++ r₀ :: rest)).foldl (trackRun (transIdOf t.mem))
      (t.transId, t.transCurr) = (transId, r₀))
    (hckpt : ckptId ≠ transId) (hfuel : FuelOk t.mem (before ++ r₀ :: rest) stop fuel) :
    ∃ t', traversePass env fuel base t = .ok (t', ⟨r₀, some (verified env.verifyDataCsum
        (transBlocks t.mem (r₀ :: rest)))⟩) ∧
      Window t t' (before ++ r₀ :: rest) stop transId r₀
        ((before ++ r₀ :: rest).foldl (fun last p => max last (entryLast t.mem p)) t.lastBlocknr)
        (decide (lastEnd t.mem t.pi.logHead (before ++ r₀ :: rest) ≠ stop)) := by
  generalize hstart : (if base = 0 then { t with bm := setBm t.bm (t.pi.logHead / 4096) } else t) = t₁
  obtain ⟨hmem₁, hpi₁, htrans₁, hcurr₁, hlast₁, hloop₁⟩ := Traverse.start_eq hstart.symm
  have hscan := traverseScan_all base (hmem₁ ▸ himage.path) (t := t₁) rfl
    (hloop₁.trans hloop) fuel hfuel.visited
  obtain ⟨hmem, hpi, hlast, hvars⟩ := scanned_eq base (before ++ r₀ :: rest) t₁ t.pi.logHead
  rw [hmem₁, htrans₁, hcurr₁, htrans] at hvars
  obtain ⟨hid, hcurr⟩ := Prod.mk.inj hvars
  have hlen : rest.length + 1 < fuel := by
    have hall := hfuel.visited
    rw [List.length_append, List.length_cons] at hall
    omega
  obtain ⟨t', hpass, hwin⟩ := himage.window env hstart.symm hscan (hmem.trans hmem₁)
    (hpi.trans hpi₁) hcurr (by rw [hid]; exact hckpt) hlen fun _ => ⟨rfl, hfuel.pages⟩
  have hwalk := himage.path.suffix.walked_all (Or.inr rfl)
  rw [hwalk] at hpass hwin
  refine ⟨t', hpass, ?_⟩
  rw [lastEnd_append]
  rw [hid, hlast, hmem₁, hlast₁] at hwin
  exact hwin

/-- **A window that scans no more than the first entry**, which belongs to no other transaction. -/
theorem LogImage.cutWindow (env : RecoverEnv) {ps : List Nat}
    (himage : LogImage t.mem t.pi.logHead (before ++ r₀ :: rest) stop) (hloop : t.loopEnd = true)
    (hbase : base ≠ 0) (hfirst : before ++ r₀ :: rest = p :: ps)
    (hsame : IsWrite t.mem p → transIdOf t.mem p = t.transId) (hcurr : t.transCurr = r₀)
    (hckpt : ckptId ≠ t.transId) (hfuel : (before ++ r₀ :: rest).length < fuel) :
    ∃ t', traversePass env fuel base t = .ok (t', ⟨r₀, some (verified env.verifyDataCsum
        (transBlocks t.mem (walked t.mem (p + entrySize t.mem p) r₀ (r₀ :: rest)).1))⟩) ∧
      Window t t' (before ++ r₀ :: rest) (p + entrySize t.mem p) t.transId r₀
        (max t.lastBlocknr (entryLast t.mem p))
        (walked t.mem (p + entrySize t.mem p) r₀ (r₀ :: rest)).2 := by
  obtain ⟨fuel, rfl⟩ : ∃ n, fuel = n + 1 := ⟨fuel - 1, by omega⟩
  have hscan := traverseScan_first base (hfirst ▸ himage.path) (t := t) rfl hloop fuel
  obtain ⟨hmem, hpi, -, hlast, hvars⟩ := (t.markJump base t.pi.logHead).handle_eq base p
  simp only [Traverse.markJump_mem, Traverse.markJump_pi, Traverse.markJump_lastBlocknr,
    Traverse.markJump_transId, Traverse.markJump_transCurr] at hmem hpi hlast hvars
  have htrack : (if IsWrite t.mem p then trackRun (transIdOf t.mem) (t.transId, t.transCurr) p
      else (t.transId, t.transCurr)) = (t.transId, r₀) := by
    by_cases hw : IsWrite t.mem p
    · rw [if_pos hw, trackRun, if_neg (not_not.mpr (hsame hw)), hcurr]
    · rw [if_neg hw, hcurr]
  rw [htrack] at hvars
  obtain ⟨hid, hcurr'⟩ := Prod.mk.inj hvars
  have hlen : rest.length + 1 < fuel + 1 := by
    rw [List.length_append, List.length_cons] at hfuel
    omega
  obtain ⟨t', hpass, hwin⟩ := himage.window env (if_neg hbase).symm hscan hmem hpi hcurr'
    (by rw [hid]; exact hckpt) hlen fun h => absurd h hbase
  rw [hid, hlast] at hwin
  exact ⟨t', hpass, hwin⟩

/-! ### Window after window -/

/-- When a cut window finds the last transaction as well: its one entry `p` belongs to no other
transaction, and the walk from the start of the last one does not end early, or ends with `p`
for a reason. -/
def CutOk (env : RecoverEnv) (m : ByteMem) (visited : List Nat) : Prop :=
  ∀ p ps, visited = p :: ps →
    (IsWrite m p → transIdOf m p = lastTransId m visited) ∧
    (lastTransaction m visited).head? ≠ some (p + entrySize m p) ∧
    ((lastTransaction m visited).head? = some p →
      lastTransaction m visited = [p] ∨ (entryBlocks m p).all env.verifyDataCsum = false)

/-- The variables between two windows of a file, when the transaction has been found. -/
structure Going (m : ByteMem) (head : Nat) (visited : List Nat) (stop r₀ bound : Nat) (t : Traverse) :
    Prop where
  same : SameLog m t.mem visited
  start : t.pi.logHead = head
  tail : t.pi.logTail ≠ 0
  transId : t.transId = lastTransId m visited
  transCurr : t.transCurr = r₀
  loopEnd : t.loopEnd = true → lastEnd m head visited ≠ stop
  last : t.lastBlocknr ≤ bound

/-- No write entry reaches beyond the bound. -/
def Bounded (m : ByteMem) (visited : List Nat) (bound : Nat) : Prop :=
  ∀ p ∈ visited, IsWrite m p → (wentry m p).pgoff + (wentry m p).numPages ≤ bound

theorem foldl_max_le {α : Type} {f : α → Nat} {l : List α} {a bound : Nat} (ha : a ≤ bound)
    (h : ∀ x ∈ l, f x ≤ bound) : l.foldl (fun last x => max last (f x)) a ≤ bound := by
  induction l generalizing a with
  | nil => exact ha
  | cons x l ih =>
      exact ih (max_le ha (h x List.mem_cons_self)) fun y hy => h y (List.mem_cons_of_mem _ hy)

theorem le_foldl_max {α : Type} (f : α → Nat) (l : List α) (a : Nat) :
    a ≤ l.foldl (fun last x => max last (f x)) a := by
  induction l generalizing a with
  | nil => exact le_refl a
  | cons x l ih => exact le_trans (le_max_left _ _) (ih _)

theorem Bounded.exists (m : ByteMem) (visited : List Nat) : ∃ bound, Bounded m visited bound := by
  induction visited with
  | nil => exact ⟨0, by simp [Bounded]⟩
  | cons p rest ih =>
      obtain ⟨bound, h⟩ := ih
      refine ⟨max bound ((wentry m p).pgoff + (wentry m p).numPages), fun q hq hw => ?_⟩
      rcases List.mem_cons.mp hq with rfl | hq
      · exact le_max_right _ _
      · exact le_trans (h q hq hw) (le_max_left _ _)

theorem LogImage.entryLast_le {bound : Nat} (h : LogImage m head visited stop)
    (hsame : SameLog m m' visited) (hbound : Bounded m visited bound) (hp : p ∈ visited) :
    entryLast m' p ≤ bound := by
  unfold entryLast
  simp only
  split
  · rename_i hcond
    have hw := (isWrite_same hsame (h.outside_entry hp)).mp hcond.1
    have hentry := h.wentry_same hsame hp hw
    have hnum := congrArg NovaFileWriteEntry.numPages hentry
    have hpgoff := congrArg NovaFileWriteEntry.pgoff hentry
    simp only at hnum hpgoff
    have hle := hbound p hp hw
    omega
  · exact Nat.zero_le _

theorem lastEnd_same (h : LogImage m head visited stop) (hsame : SameLog m m' visited) (rest : List Nat)
    (hsub : rest ⊆ visited) (curr : Nat) : lastEnd m' curr rest = lastEnd m curr rest := by
  induction rest generalizing curr with
  | nil => rfl
  | cons p rest ih =>
      have hp : p ∈ visited := hsub List.mem_cons_self
      rw [lastEnd, lastEnd, entrySize_same hsame (h.outside_entry hp),
        ih fun q hq => hsub (List.mem_cons_of_mem _ hq)]

theorem transBlocks_writes (ps : List Nat) : transBlocks m ps = (writesOf m ps).flatMap (entryBlocks m) :=
  rfl

theorem verified_eq_nil {valid : Nat → Bool} {bs : List Nat} : verified valid bs = [] ↔ bs = [] := by
  cases bs with
  | nil => simp [verified]
  | cons b bs =>
      unfold verified
      cases hb : valid b <;> simp [hb]

/-- A pass that starts where the last transaction does and verifies all of it. -/
theorem identifies_whole (htrans : lastTransaction m visited = writesOf m (r₀ :: rest))
    (hw : IsWrite m r₀) : IdentifiesTransaction env m visited
      ⟨r₀, some (verified env.verifyDataCsum (transBlocks m (r₀ :: rest)))⟩ := by
  refine ⟨?_, ?_⟩
  · rw [htrans, writesOf_write hw]
    simp only [List.head?_cons]
  · rw [htrans, transBlocks_writes]

/-- **A cut window finds the last transaction exactly when `CutOk`.** -/
theorem LogImage.cut_iff {ps : List Nat} (himage : LogImage m head (before ++ r₀ :: rest) stop)
    (hfirst : before ++ r₀ :: rest = p :: ps)
    (htrans : lastTransaction m (before ++ r₀ :: rest) = writesOf m (r₀ :: rest)) (hw : IsWrite m r₀)
    (hp : IsWrite m p → transIdOf m p = lastTransId m (before ++ r₀ :: rest)) :
    IdentifiesTransaction env m (before ++ r₀ :: rest) ⟨r₀, some (verified env.verifyDataCsum
        (transBlocks m (walked m (p + entrySize m p) r₀ (r₀ :: rest)).1))⟩ ↔
      CutOk env m (before ++ r₀ :: rest) := by
  have hblocks : ∀ q ∈ before ++ r₀ :: rest, IsWrite m q → entryBlocks m q ≠ [] := by
    intro q hq hwq
    simp [entryBlocks, (himage.ok q hq).pages hwq]
  have hr₀ : r₀ ∈ before ++ r₀ :: rest := by simp
  have hpin : p ∈ before ++ r₀ :: rest := by
    rw [hfirst]
    exact List.mem_cons_self
  have hhead : (lastTransaction m (before ++ r₀ :: rest)).head? = some r₀ := by
    rw [htrans, writesOf_write hw]
    simp only [List.head?_cons]
  have hall : transBlocks m (r₀ :: rest) = entryBlocks m r₀ ++ transBlocks m rest := by
    rw [transBlocks_writes, writesOf_write hw, List.flatMap_cons, transBlocks_writes]
  have hrun : lastTransaction m (before ++ r₀ :: rest) = r₀ :: writesOf m rest := by
    rw [htrans, writesOf_write hw]
  have hiff : IdentifiesTransaction env m (before ++ r₀ :: rest) ⟨r₀, some (verified env.verifyDataCsum
        (transBlocks m (walked m (p + entrySize m p) r₀ (r₀ :: rest)).1))⟩ ↔
      verified env.verifyDataCsum (transBlocks m (walked m (p + entrySize m p) r₀ (r₀ :: rest)).1) =
        verified env.verifyDataCsum (entryBlocks m r₀ ++ transBlocks m rest) := by
    rw [IdentifiesTransaction, hhead, htrans, ← transBlocks_writes, hall]
    simp
  rw [hiff]
  by_cases hend : r₀ = p + entrySize m p
  · -- the walk ends before it has begun
    have hwalk : (walked m (p + entrySize m p) r₀ (r₀ :: rest)).1 = [] := by
      rw [walked, if_pos hend]
    rw [hwalk]
    constructor
    · intro heq
      have hnil := verified_eq_nil.mp heq.symm
      exact absurd (List.append_eq_nil_iff.mp hnil).1 (hblocks r₀ hr₀ hw)
    · intro hcut
      exact absurd (hend ▸ hhead) (hcut p ps hfirst).2.1
  by_cases hrp : r₀ = p
  · -- the walk ends behind its first entry
    subst hrp
    have hpos := (himage.ok r₀ hr₀).min
    have hwalk : (walked m (r₀ + entrySize m r₀) r₀ (r₀ :: rest)).1 = [r₀] := by
      rw [walked, if_neg hend]
      cases rest with
      | nil => rfl
      | cons q rest => simp [walked]
    have hone : transBlocks m [r₀] = entryBlocks m r₀ := by
      rw [transBlocks_writes, writesOf_write hw]
      simp [writesOf]
    rw [hwalk, hone]
    cases hvalid : (entryBlocks m r₀).all env.verifyDataCsum with
    | false =>
        rw [verified_append_of_not_all hvalid]
        refine ⟨fun _ p' ps' hfirst' => ?_, fun _ => rfl⟩
        obtain ⟨rfl, rfl⟩ := List.cons.inj (hfirst.symm.trans hfirst')
        exact ⟨hp, by rw [hhead]; simpa using hend, fun _ => Or.inr hvalid⟩
    | true =>
        have hself := verified_append_of_all [] hvalid
        rw [List.append_nil] at hself
        rw [verified_append_of_all _ hvalid, hself]
        have hnil : verified env.verifyDataCsum ([] : List Nat) = [] := verified_eq_nil.mpr rfl
        rw [hnil, List.append_right_inj, eq_comm, verified_eq_nil]
        have hempty : transBlocks m rest = [] ↔ writesOf m rest = [] := by
          rw [transBlocks_writes, List.flatMap_eq_nil_iff]
          constructor
          · intro h
            refine List.eq_nil_iff_forall_not_mem.mpr fun q hq => ?_
            obtain ⟨hq', hwq⟩ := mem_writesOf.mp hq
            exact hblocks q (by simp [hq']) hwq (h q hq)
          · intro h
            simp [h]
        rw [hempty]
        constructor
        · intro hrest p' ps' hfirst'
          obtain ⟨rfl, rfl⟩ := List.cons.inj (hfirst.symm.trans hfirst')
          exact ⟨hp, by rw [hhead]; simpa using hend, fun _ => Or.inl (by rw [hrun, hrest])⟩
        · intro hcut
          rcases (hcut r₀ ps hfirst).2.2 hhead with hone' | hbad
          · rw [hrun] at hone'
            exact (List.cons.inj hone').2
          · rw [hvalid] at hbad
            cases hbad
  · -- the walk does not come to the place where it is to end
    have hwalk : (walked m (p + entrySize m p) r₀ (r₀ :: rest)).1 = r₀ :: rest := by
      have hnone : ∀ q ∈ r₀ :: rest, q + entrySize m q ≠ p + entrySize m p := by
        intro q hq
        have hqin : q ∈ before ++ r₀ :: rest := by
          rcases List.mem_cons.mp hq with rfl | hq
          · exact hr₀
          · simp [hq]
        have hne : q ≠ p := by
          cases before with
          | nil => exact absurd (List.cons.inj hfirst).1 hrp
          | cons b before =>
              obtain ⟨rfl, -⟩ := List.cons.inj hfirst
              have hnodup := (List.nodup_cons.mp himage.nodup).1
              rintro rfl
              exact hnodup (List.mem_append_right _ hq)
        have hapart := himage.apartOf hqin hpin hne
        have hminq := (himage.ok q hqin).min
        have hminp := (himage.ok p hpin).min
        omega
      rw [walked_none _ hend hnone]
    rw [hwalk, hall]
    refine ⟨fun _ p' ps' hfirst' => ?_, fun _ => rfl⟩
    obtain ⟨rfl, rfl⟩ := List.cons.inj (hfirst.symm.trans hfirst')
    exact ⟨hp, by rw [hhead]; simpa using hend, fun h => absurd (Option.some.inj (hhead.symm.trans h)) hrp⟩

theorem mem_lastTransaction (hp : p ∈ lastTransaction m visited) : p ∈ visited ∧ IsWrite m p := by
  obtain ⟨b, hb⟩ := lastRun_suffix (transIdOf m) (writesOf m visited)
  refine mem_writesOf.mp ?_
  rw [hb]
  exact List.mem_append_right _ hp

theorem LogImage.identifies_same {pass : TraversePass} (h : LogImage m head visited stop)
    (hsame : SameLog m m' visited) :
    IdentifiesTransaction env m' visited pass ↔ IdentifiesTransaction env m visited pass := by
  have hblocks : (lastTransaction m visited).flatMap (entryBlocks m') =
      (lastTransaction m visited).flatMap (entryBlocks m) := by
    refine List.flatMap_congr fun p hp => ?_
    obtain ⟨hp, hw⟩ := mem_lastTransaction hp
    exact h.entryBlocks_same hsame hp hw
  rw [IdentifiesTransaction, IdentifiesTransaction, h.lastTransaction_same hsame, hblocks]

theorem LogImage.lastTransId_same (h : LogImage m head visited stop) (hsame : SameLog m m' visited) :
    lastTransId m' visited = lastTransId m visited := by
  rw [lastTransId, lastTransId, h.writesOf_same hsame fun _ hp => hp]
  have hlast : (writesOf m visited).getLast?.map (transIdOf m') =
      (writesOf m visited).getLast?.map (transIdOf m) := by
    refine Option.map_congr fun p hp => ?_
    obtain ⟨hp, hw⟩ := mem_writesOf.mp (List.mem_of_getLast? hp)
    exact h.transIdOf_same hsame hp hw
  rw [hlast]

theorem LogImage.cutOk_same (h : LogImage m head visited stop) (hsame : SameLog m m' visited) :
    CutOk env m' visited ↔ CutOk env m visited := by
  unfold CutOk
  refine forall_congr' fun p => forall_congr' fun ps => forall_congr' fun hfirst => ?_
  have hp : p ∈ visited := by
    rw [hfirst]
    exact List.mem_cons_self
  have hout := h.outside_entry hp
  rw [h.lastTransaction_same hsame, h.lastTransId_same hsame, entrySize_same hsame hout]
  refine and_congr ?_ (and_congr Iff.rfl ?_)
  · have hiff := isWrite_same hsame hout
    constructor
    · intro himp hw
      rw [← h.transIdOf_same hsame hp hw]
      exact himp (hiff.mpr hw)
    · intro himp hw
      rw [h.transIdOf_same hsame hp (hiff.mp hw)]
      exact himp (hiff.mp hw)
  · refine forall_congr' fun hhead => ?_
    have hw := (mem_lastTransaction (List.mem_of_mem_head? hhead)).2
    rw [h.entryBlocks_same hsame hp hw]

/-- The scan of a whole log ends with the last transaction, unless the log has no other
`trans_id` than the one the scan starts with. -/
theorem foldl_trackRun_last {s : Nat × Nat} (hw : writesOf m visited ≠ [])
    (hhead : (lastTransaction m visited).head? = some r₀)
    (h : (∃ p ∈ writesOf m visited, transIdOf m p ≠ s.1) ∨ s = (lastTransId m visited, r₀)) :
    (writesOf m visited).foldl (trackRun (transIdOf m)) s = (lastTransId m visited, r₀) := by
  obtain ⟨k, a⟩ := s
  by_cases hother : ∃ p ∈ writesOf m visited, transIdOf m p ≠ k
  · have hkey := foldl_trackRun_key (transIdOf m) k a (writesOf m visited)
    have hstart := foldl_trackRun_start (a := a) hother
    refine Prod.ext ?_ ?_
    · rw [hkey, lastTransId, List.getLast?_eq_some_getLast hw]
      rfl
    · exact Option.some.inj (hstart.symm.trans hhead)
  · have hs := h.resolve_left hother
    have hsame : ∀ p ∈ writesOf m visited, transIdOf m p = k := by
      simpa using hother
    rw [foldl_trackRun_same hsame]
    exact hs

theorem FuelOk.same (himage : LogImage m head visited stop) (hsame : SameLog m m' visited)
    (h : FuelOk m visited stop fuel) : FuelOk m' visited stop fuel := by
  obtain ⟨pages, hlen, hlink, hpages⟩ := h.pages
  refine ⟨h.visited, pages, hlen, hlink.congr fun p hp => himage.nextPage_same hsame ?_, hpages⟩
  rcases List.mem_cons.mp hp with rfl | hp
  · unfold blockOff
    omega
  · exact (hpages p hp).1

/-- The variables for the next window, after a window that has found the transaction. -/
theorem Going.next {bound tail last : Nat} {loopEnd : Bool} (himage : LogImage m head visited stop)
    (hgoing : Going m head visited stop r₀ bound t)
    (hwin : Window t t' visited tail t.transId r₀ last loopEnd) (htail : tail ≠ 0)
    (hloop : loopEnd = true → lastEnd m head visited ≠ stop) (hlast : last ≤ bound) :
    Going m head visited stop r₀ bound t' :=
  ⟨SameLog.trans himage hgoing.same hwin.same, hwin.head.trans hgoing.start, by rw [hwin.tail]; exact htail,
    hwin.transId.trans hgoing.transId, hwin.transCurr, by rw [hwin.loopEnd]; exact hloop,
    by rw [hwin.lastBlocknr]; exact hlast⟩

/-- **One more window**, after the transaction has been found. -/
theorem Going.window {bound : Nat} (himage : LogImage m head (before ++ r₀ :: rest) stop)
    (hgoing : Going m head (before ++ r₀ :: rest) stop r₀ bound t)
    (htrans : lastTransaction m (before ++ r₀ :: rest) = writesOf m (r₀ :: rest)) (hw : IsWrite m r₀)
    (hckpt : lastTransId m (before ++ r₀ :: rest) ≠ ckptId)
    (hbound : Bounded m (before ++ r₀ :: rest) bound) (hbase : base ≠ 0)
    (hcut : t.loopEnd = true → CutOk env m (before ++ r₀ :: rest))
    (hfuel : FuelOk m (before ++ r₀ :: rest) stop fuel) :
    ∃ t' pass, traversePass env fuel base t = .ok (t', pass) ∧
      IdentifiesTransaction env m (before ++ r₀ :: rest) pass ∧ t.lastBlocknr ≤ t'.lastBlocknr ∧
      Going m head (before ++ r₀ :: rest) stop r₀ bound t' := by
  have himage' : LogImage t.mem t.pi.logHead (before ++ r₀ :: rest) stop := by
    rw [hgoing.start]
    exact himage.same hgoing.same
  have hfuel' := hfuel.same himage hgoing.same
  have hr₀ : r₀ ∈ before ++ r₀ :: rest := by simp
  have hsub : r₀ :: rest ⊆ before ++ r₀ :: rest := List.subset_append_right _ _
  have hw' := (isWrite_same hgoing.same (himage.outside_entry hr₀)).mpr hw
  have htrans' : lastTransaction t.mem (before ++ r₀ :: rest) = writesOf t.mem (r₀ :: rest) := by
    rw [himage.lastTransaction_same hgoing.same, htrans, himage.writesOf_same hgoing.same hsub]
  have hid' := himage.lastTransId_same hgoing.same
  have hlast : ∀ p ∈ before ++ r₀ :: rest, entryLast t.mem p ≤ bound := fun p hp =>
    himage.entryLast_le hgoing.same hbound hp
  cases hloop : t.loopEnd with
  | false =>
      have hne : writesOf t.mem (before ++ r₀ :: rest) ≠ [] := by
        intro hnil
        have hmem := mem_writesOf.mpr ⟨hr₀, hw'⟩
        rw [hnil] at hmem
        cases hmem
      have hhead : (lastTransaction t.mem (before ++ r₀ :: rest)).head? = some r₀ := by
        rw [htrans', writesOf_write hw']
        simp only [List.head?_cons]
      have hfold := foldl_trackRun_last (s := (t.transId, t.transCurr)) hne hhead
        (Or.inr (by rw [hid', hgoing.transId, hgoing.transCurr]))
      obtain ⟨t', hpass, hwin⟩ := himage'.wholeWindow env base hloop hfold
        (by rw [hid']; exact hckpt.symm) hfuel'
      rw [hid', ← hgoing.transId] at hwin
      refine ⟨t', _, hpass, ?_, ?_, hgoing.next himage hwin himage.path.stopped.1 ?_ ?_⟩
      · exact (himage.identifies_same hgoing.same).mp (identifies_whole htrans' hw')
      · rw [hwin.lastBlocknr]
        exact le_foldl_max _ _ _
      · intro hend
        have hend' := of_decide_eq_true hend
        rwa [hgoing.start, lastEnd_same himage hgoing.same _ fun _ hp => hp] at hend'
      · exact foldl_max_le hgoing.last hlast
  | true =>
      obtain ⟨p, ps, hfirst⟩ := List.exists_cons_of_ne_nil (List.ne_nil_of_mem hr₀)
      have hcutOk := (himage.cutOk_same hgoing.same).mpr (hcut hloop)
      have hp := (hcutOk p ps hfirst).1
      obtain ⟨t', hpass, hwin⟩ := himage'.cutWindow env hloop hbase hfirst
        (fun hwp => by rw [hp hwp, hid', hgoing.transId]) hgoing.transCurr
        (by rw [hgoing.transId]; exact hckpt.symm) hfuel.visited
      have hpin : p ∈ before ++ r₀ :: rest := by
        rw [hfirst]
        exact List.mem_cons_self
      refine ⟨t', _, hpass, ?_, ?_, hgoing.next himage hwin ?_ (fun _ => hgoing.loopEnd hloop) ?_⟩
      · exact (himage.identifies_same hgoing.same).mp ((himage'.cut_iff hfirst htrans' hw' hp).mpr hcutOk)
      · rw [hwin.lastBlocknr]
        exact le_max_left _ _
      · have hpos := (himage.ok p hpin).ne
        omega
      · exact max_le hgoing.last (hlast p hpin)

theorem ok_bind {ε α β : Type} (a : α) (f : α → Except ε β) : (Except.ok a).bind f = f a := rfl

/-- **All further windows**, after the transaction has been found. -/
theorem Going.windows (env : RecoverEnv) {bound : Nat} (himage : LogImage m head (before ++ r₀ :: rest) stop)
    (htrans : lastTransaction m (before ++ r₀ :: rest) = writesOf m (r₀ :: rest)) (hw : IsWrite m r₀)
    (hckpt : lastTransId m (before ++ r₀ :: rest) ≠ ckptId)
    (hbound : Bounded m (before ++ r₀ :: rest) bound)
    (hcut : lastEnd m head (before ++ r₀ :: rest) ≠ stop → CutOk env m (before ++ r₀ :: rest))
    (hfuel : FuelOk m (before ++ r₀ :: rest) stop fuel) (windows : Nat) :
    ∀ {base : Nat} {t : Traverse}, Going m head (before ++ r₀ :: rest) stop r₀ bound t → base ≠ 0 →
      base ≤ t.lastBlocknr → bound < base + windows * maxPgoff →
      ∃ t' passes, traverseWindows env fuel windows base t = .ok (t', passes) ∧
        ∀ pass ∈ passes, IdentifiesTransaction env m (before ++ r₀ :: rest) pass := by
  induction windows with
  | zero =>
      intro base t hgoing hbase hreach hlimit
      have := hgoing.last
      omega
  | succ windows ih =>
      intro base t hgoing hbase hreach hlimit
      obtain ⟨t', pass, hpass, hright, hmore, hgoing'⟩ := hgoing.window himage htrans hw hckpt hbound
        hbase (fun h => hcut (hgoing.loopEnd h)) hfuel
      have hhead : ¬(t.pi.logHead = 0 ∨ t.pi.logTail = 0) := by
        rintro (h | h)
        · exact himage.start.1 (hgoing.start.symm.trans h)
        · exact hgoing.tail h
      rw [traverseWindows, if_neg hhead, hpass, ok_bind]
      by_cases hnext : t'.lastBlocknr ≥ base + maxPgoff
      · obtain ⟨t'', passes, hrun, hall⟩ := ih hgoing' (by omega : base + maxPgoff ≠ 0) hnext (by
          rw [Nat.succ_mul] at hlimit
          omega)
        rw [if_pos hnext, hrun]
        refine ⟨t'', pass :: passes, rfl, fun q hq => ?_⟩
        rcases List.mem_cons.mp hq with rfl | hq
        · exact hright
        · exact hall q hq
      · rw [if_neg hnext]
        refine ⟨t', [pass], rfl, fun q hq => ?_⟩
        rw [List.mem_singleton.mp hq]
        exact hright

/-- What a window finds, read off its scan. -/
theorem traversePass_scan {t₁ ts : Traverse} {pass : TraversePass}
    (hhead : t.pi.logHead % 4096 = 0)
    (hstart : t₁ = if base = 0 then { t with bm := setBm t.bm (t.pi.logHead / 4096) } else t)
    (hscan : traverseScan base fuel t₁ t.pi.logHead = .ok (ts, currP))
    (hpass : traversePass env fuel base t = .ok (t', pass)) :
    pass.transCurr = ts.transCurr ∧ (ckptId = ts.transId → pass.checked = none) := by
  rw [traversePass] at hpass
  simp only [hhead, ne_eq, not_true_eq_false, and_false, if_false, ← hstart, hscan, Except.bind] at hpass
  cases hlatest : latestTransaction env fuel base { ts with pi := { ts.pi with logTail := currP } } currP with
  | error f =>
      rw [hlatest] at hpass
      cases hpass
  | ok r =>
      have hpass' : r.2 = pass := by
        rw [hlatest] at hpass
        simp only [Except.map] at hpass
        split at hpass
        · cases hpass
        · exact (Prod.mk.inj (Except.ok.inj hpass)).2
      rw [← hpass']
      rw [latestTransaction] at hlatest
      by_cases hckpt : ckptId ≠ ts.transId
      · refine ⟨?_, fun h => absurd h hckpt⟩
        rw [if_pos hckpt] at hlatest
        cases hcheck : checkTransaction env ts.mem currP fuel ts.transCurr with
        | error f =>
            simp only [hcheck, Except.bind] at hlatest
            cases hlatest
        | ok c =>
            simp only [hcheck, Except.bind] at hlatest
            split at hlatest
            · cases hclear : clearTransaction base currP fuel { ts with
                  pi := { ts.pi with logTail := currP, recoveryLatestTransInvalid := true }
                  loopEnd := false } ts.transCurr with
              | error f =>
                  simp only [hclear, Except.map] at hlatest
                  cases hlatest
              | ok s =>
                  simp only [hclear, Except.map] at hlatest
                  rw [← Except.ok.inj hlatest]
            · rw [← Except.ok.inj hlatest]
      · rw [if_neg hckpt] at hlatest
        rw [← Except.ok.inj hlatest]
        exact ⟨rfl, fun _ => rfl⟩

/-- The windows of a run that ends. -/
theorem traverseWindows_ok {windows : Nat} {passes : List TraversePass}
    (hhead : ¬(t.pi.logHead = 0 ∨ t.pi.logTail = 0))
    (hrun : traverseWindows env fuel (windows + 1) base t = .ok (t', passes)) :
    ∃ s pass more, traversePass env fuel base t = .ok (s, pass) ∧ passes = pass :: more ∧
      (s.lastBlocknr ≥ base + maxPgoff →
        traverseWindows env fuel windows (base + maxPgoff) s = .ok (t', more)) := by
  rw [traverseWindows, if_neg hhead] at hrun
  cases hpass : traversePass env fuel base t with
  | error f =>
      rw [hpass] at hrun
      cases hrun
  | ok r =>
      -- the right side by its own lemma, since the window's size must not be computed with
      rw [hpass, ok_bind] at hrun
      by_cases hnext : r.1.lastBlocknr ≥ base + maxPgoff
      · rw [if_pos hnext] at hrun
        cases hrest : traverseWindows env fuel windows (base + maxPgoff) r.1 with
        | error f =>
            rw [hrest] at hrun
            cases hrun
        | ok w =>
            rw [hrest] at hrun
            obtain ⟨rfl, rfl⟩ := Prod.mk.inj (Except.ok.inj hrun)
            exact ⟨r.1, r.2, w.2, rfl, rfl, fun _ => hrest⟩
      · rw [if_neg hnext] at hrun
        obtain ⟨rfl, rfl⟩ := Prod.mk.inj (Except.ok.inj hrun)
        exact ⟨r.1, r.2, [], rfl, rfl, fun h => absurd h hnext⟩

end

/-- Recovery identifies the last transaction of a file, whatever `trans_curr` holds at the start:
every scan finds its start, its data blocks are the ones verified, and everything ends. -/
def TransactionIdentified (env : RecoverEnv) (r : Recovery) (pi : RecoverInode) (visited : List Nat) :
    Prop :=
  ∀ transCurr, ∃ enough, ∀ fuel ≥ enough, ∃ t passes,
    novaTraverseFileInodeLog env fuel r pi transCurr = .ok (t, passes) ∧ passes ≠ [] ∧
      ∀ pass ∈ passes, IdentifiesTransaction env r.mem visited pass

/-- When it does: some write entry's `trans_id` is not the one the header comes with, the last
one is not the number that stands for no checkpoint, and if the file has more than one window
and its log goes on in a page behind its end, then the windows cut short find it too. -/
def TransactionVisible (env : RecoverEnv) (r : Recovery) (pi : RecoverInode) (visited : List Nat)
    (stop : Nat) : Prop :=
  (∃ p ∈ writesOf r.mem visited, transIdOf r.mem p ≠ r.transId) ∧
    lastTransId r.mem visited ≠ ckptId ∧
    (maxPgoff ≤ lastPage r.mem visited → lastEnd r.mem pi.logHead visited ≠ stop →
      CutOk env r.mem visited)

/-- The variables at the start of a file. -/
def Traverse.first (r : Recovery) (pi : RecoverInode) (transCurr : Nat) : Traverse where
  toRecovery := r
  pi := pi
  transCurr := transCurr
  lastBlocknr := 0
  loopEnd := false

section

variable {env : RecoverEnv} {r : Recovery} {pi : RecoverInode} {visited before rest : List Nat}
  {stop r₀ fuel : Nat}

theorem LogImage.fuelOk {m : ByteMem} {head : Nat} (himage : LogImage m head visited stop) :
    ∃ enough, ∀ fuel ≥ enough, FuelOk m visited stop fuel := by
  obtain ⟨pages, hlink, hpages⟩ := himage.chain
  refine ⟨visited.length + pages.length + 1, fun fuel hfuel => ⟨by omega, pages, by omega, hlink, hpages⟩⟩

/-- The first window, when the transaction is visible to it. -/
theorem LogImage.firstWindow (env : RecoverEnv) (himage : LogImage r.mem pi.logHead (before ++ r₀ :: rest) stop)
    (htrans : lastTransaction r.mem (before ++ r₀ :: rest) = writesOf r.mem (r₀ :: rest))
    (hw : IsWrite r.mem r₀)
    (hother : ∃ p ∈ writesOf r.mem (before ++ r₀ :: rest), transIdOf r.mem p ≠ r.transId)
    (hckpt : lastTransId r.mem (before ++ r₀ :: rest) ≠ ckptId)
    (hfuel : FuelOk r.mem (before ++ r₀ :: rest) stop fuel) (transCurr bound : Nat)
    (hbound : Bounded r.mem (before ++ r₀ :: rest) bound) :
    ∃ t pass, traversePass env fuel 0 (Traverse.first r pi transCurr) = .ok (t, pass) ∧
      IdentifiesTransaction env r.mem (before ++ r₀ :: rest) pass ∧
      Going r.mem pi.logHead (before ++ r₀ :: rest) stop r₀ bound t ∧
      t.lastBlocknr = lastPage r.mem (before ++ r₀ :: rest) ∧
      t.loopEnd = decide (lastEnd r.mem pi.logHead (before ++ r₀ :: rest) ≠ stop) := by
  have hne : writesOf r.mem (before ++ r₀ :: rest) ≠ [] := by
    rintro hnil
    rw [hnil] at hother
    simp at hother
  have hhead : (lastTransaction r.mem (before ++ r₀ :: rest)).head? = some r₀ := by
    rw [htrans, writesOf_write hw]
    simp only [List.head?_cons]
  have hfold := foldl_trackRun_last (s := (r.transId, transCurr)) hne hhead (Or.inl hother)
  obtain ⟨t, hpass, hwin⟩ := LogImage.wholeWindow env 0 (t := Traverse.first r pi transCurr) himage rfl hfold
    hckpt.symm hfuel
  refine ⟨t, _, hpass, identifies_whole htrans hw, ⟨hwin.same, hwin.head, ?_, hwin.transId, hwin.transCurr, ?_, ?_⟩,
    hwin.lastBlocknr, hwin.loopEnd⟩
  · rw [hwin.tail]
    exact himage.path.stopped.1
  · rw [hwin.loopEnd]
    exact fun h => of_decide_eq_true h
  · rw [hwin.lastBlocknr]
    exact foldl_max_le (Nat.zero_le _) fun p hp => himage.entryLast_le SameLog.refl hbound hp

/-- A visible transaction is identified. -/
theorem TransactionVisible.identified (himage : LogImage r.mem pi.logHead (before ++ r₀ :: rest) stop)
    (htail : pi.logTail ≠ 0)
    (htrans : lastTransaction r.mem (before ++ r₀ :: rest) = writesOf r.mem (r₀ :: rest))
    (hw : IsWrite r.mem r₀) (h : TransactionVisible env r pi (before ++ r₀ :: rest) stop) :
    TransactionIdentified env r pi (before ++ r₀ :: rest) := by
  obtain ⟨hother, hckpt, hcut⟩ := h
  obtain ⟨enough, hfuelOk⟩ := himage.fuelOk
  obtain ⟨bound, hbound⟩ := Bounded.exists r.mem (before ++ r₀ :: rest)
  intro transCurr
  refine ⟨enough + bound + 1, fun fuel hfuel => ?_⟩
  obtain ⟨windows, rfl⟩ : ∃ n, fuel = n + 1 := ⟨fuel - 1, by omega⟩
  have hfuelOk := hfuelOk (windows + 1) (by omega)
  obtain ⟨t, pass, hpass, hright, hgoing, hlast, -⟩ := himage.firstWindow env htrans hw hother hckpt hfuelOk
    transCurr bound hbound
  have hhead : ¬(pi.logHead = 0 ∨ pi.logTail = 0) := not_or.mpr ⟨himage.start.1, htail⟩
  have hrun : novaTraverseFileInodeLog env (windows + 1) r pi transCurr =
      traverseWindows env (windows + 1) (windows + 1) 0 (Traverse.first r pi transCurr) := rfl
  rw [hrun, traverseWindows, if_neg (by exact hhead), hpass]
  simp only [Except.bind]
  by_cases hmore : t.lastBlocknr ≥ 0 + maxPgoff
  · obtain ⟨t', passes, hrest, hall⟩ := Going.windows env himage htrans hw hckpt hbound
      (fun hend => hcut (by omega) hend) hfuelOk windows hgoing (by decide : 0 + maxPgoff ≠ 0) hmore (by
        have hwindow : windows * 1 ≤ windows * maxPgoff := Nat.mul_le_mul_left _ (by decide)
        have hpos : 0 < maxPgoff := by decide
        omega)
    rw [if_pos hmore, hrest]
    refine ⟨t', pass :: passes, rfl, List.cons_ne_nil _ _, fun q hq => ?_⟩
    rcases List.mem_cons.mp hq with rfl | hq
    · exact hright
    · exact hall q hq
  · rw [if_neg hmore]
    refine ⟨t, [pass], rfl, List.cons_ne_nil _ _, fun q hq => ?_⟩
    rw [List.mem_singleton.mp hq]
    exact hright

/-- What the first window of an identified transaction finds. -/
theorem TransactionIdentified.first (himage : LogImage r.mem pi.logHead visited stop) (htail : pi.logTail ≠ 0)
    (h : TransactionIdentified env r pi visited) (transCurr enough : Nat) :
    ∃ fuel ≥ enough, ∃ t pass more s, traversePass env (fuel + 1) 0 (Traverse.first r pi transCurr) = .ok (t, pass) ∧
      (∀ q ∈ pass :: more, IdentifiesTransaction env r.mem visited q) ∧
      (t.lastBlocknr ≥ 0 + maxPgoff → traverseWindows env (fuel + 1) fuel (0 + maxPgoff) t = .ok (s, more)) := by
  obtain ⟨enough', h⟩ := h transCurr
  obtain ⟨s, passes, hrun, -, hall⟩ := h (enough + enough' + 1) (by omega)
  have hhead : ¬(pi.logHead = 0 ∨ pi.logTail = 0) := not_or.mpr ⟨himage.start.1, htail⟩
  obtain ⟨t, pass, more, hpass, rfl, hrest⟩ :=
    traverseWindows_ok (t := Traverse.first r pi transCurr) hhead hrun
  exact ⟨enough + enough', by omega, t, pass, more, s, hpass, hall, hrest⟩

/-- What the scan of the first window leaves in the header and in `trans_curr`. -/
theorem LogImage.firstScan {t : Traverse} {pass : TraversePass}
    (himage : LogImage r.mem pi.logHead visited stop) (hfuel : visited.length < fuel) {transCurr : Nat}
    (hpass : traversePass env fuel 0 (Traverse.first r pi transCurr) = .ok (t, pass)) :
    pass.transCurr = ((writesOf r.mem visited).foldl (trackRun (transIdOf r.mem)) (r.transId, transCurr)).2 ∧
      (ckptId = ((writesOf r.mem visited).foldl (trackRun (transIdOf r.mem)) (r.transId, transCurr)).1 →
        pass.checked = none) := by
  generalize hstart : (if (0 : Nat) = 0 then { Traverse.first r pi transCurr with
    bm := setBm r.bm (pi.logHead / 4096) } else Traverse.first r pi transCurr) = t₁
  obtain ⟨hmem, -, htrans, hcurr, -, hloop⟩ := Traverse.start_eq hstart.symm
  have hscan := traverseScan_all 0 (t := t₁) (hmem ▸ himage.path) rfl hloop fuel hfuel
  obtain ⟨-, -, -, hvars⟩ := scanned_eq 0 visited t₁ pi.logHead
  rw [hmem, htrans, hcurr] at hvars
  have hfound := traversePass_scan (t := Traverse.first r pi transCurr) himage.start.2 hstart.symm hscan hpass
  have hvars' : (writesOf r.mem visited).foldl (trackRun (transIdOf r.mem)) (r.transId, transCurr) =
      ((scanned 0 t₁ pi.logHead visited).transId, (scanned 0 t₁ pi.logHead visited).transCurr) := hvars.symm
  rw [hvars']
  exact hfound

/-- A window that is cut short and still identifies the transaction. -/
theorem Going.cut {bound base : Nat} {m : ByteMem} {head : Nat} {t t' : Traverse} {pass : TraversePass}
    (himage : LogImage m head (before ++ r₀ :: rest) stop)
    (hgoing : Going m head (before ++ r₀ :: rest) stop r₀ bound t)
    (htrans : lastTransaction m (before ++ r₀ :: rest) = writesOf m (r₀ :: rest)) (hw : IsWrite m r₀)
    (hid : transIdOf m r₀ = lastTransId m (before ++ r₀ :: rest))
    (hckpt : lastTransId m (before ++ r₀ :: rest) ≠ ckptId) (hbase : base ≠ 0) (hloop : t.loopEnd = true)
    (hfuel : (before ++ r₀ :: rest).length < fuel)
    (hpass : traversePass env fuel base t = .ok (t', pass))
    (hright : IdentifiesTransaction env m (before ++ r₀ :: rest) pass) :
    CutOk env m (before ++ r₀ :: rest) := by
  have himage' : LogImage t.mem t.pi.logHead (before ++ r₀ :: rest) stop := by
    rw [hgoing.start]
    exact himage.same hgoing.same
  have hr₀ : r₀ ∈ before ++ r₀ :: rest := by simp
  have hsub : r₀ :: rest ⊆ before ++ r₀ :: rest := List.subset_append_right _ _
  have hw' := (isWrite_same hgoing.same (himage.outside_entry hr₀)).mpr hw
  have htrans' : lastTransaction t.mem (before ++ r₀ :: rest) = writesOf t.mem (r₀ :: rest) := by
    rw [himage.lastTransaction_same hgoing.same, htrans, himage.writesOf_same hgoing.same hsub]
  have hid' := himage.lastTransId_same hgoing.same
  have hright' := (himage.identifies_same hgoing.same).mpr hright
  obtain ⟨p, ps, hfirst⟩ := List.exists_cons_of_ne_nil (List.ne_nil_of_mem hr₀)
  have hp : IsWrite t.mem p → transIdOf t.mem p = t.transId := by
    intro hwp
    by_contra hne
    obtain ⟨fuel, rfl⟩ : ∃ n, fuel = n + 1 := ⟨fuel - 1, by omega⟩
    have hscan := traverseScan_first base (hfirst ▸ himage'.path) (t := t) rfl hloop fuel
    obtain ⟨-, -, -, -, hvars⟩ := (t.markJump base t.pi.logHead).handle_eq base p
    simp only [Traverse.markJump_mem, Traverse.markJump_transId, Traverse.markJump_transCurr] at hvars
    rw [if_pos hwp, trackRun, if_pos hne] at hvars
    have hcurr := (traversePass_scan himage'.start.2 (if_neg hbase).symm hscan hpass).1
    rw [(Prod.mk.inj hvars).2] at hcurr
    have hsome := hright'.1
    rw [htrans', writesOf_write hw', List.head?_cons, hcurr] at hsome
    rw [← Option.some.inj hsome, himage.transIdOf_same hgoing.same hr₀ hw, hid] at hne
    exact hne hgoing.transId.symm
  obtain ⟨t'', hcut, -⟩ := himage'.cutWindow env hloop hbase hfirst hp hgoing.transCurr
    (by rw [hgoing.transId]; exact hckpt.symm) hfuel
  obtain ⟨-, rfl⟩ := Prod.mk.inj (Except.ok.inj (hpass.symm.trans hcut))
  refine (himage.cutOk_same hgoing.same).mp ((himage'.cut_iff hfirst htrans' hw' fun hwp => ?_).mp hright')
  rw [hp hwp, hgoing.transId, hid']

/-- An identified transaction is visible. -/
theorem TransactionIdentified.visible (himage : LogImage r.mem pi.logHead (before ++ r₀ :: rest) stop)
    (htail : pi.logTail ≠ 0)
    (htrans : lastTransaction r.mem (before ++ r₀ :: rest) = writesOf r.mem (r₀ :: rest))
    (hw : IsWrite r.mem r₀) (hid : transIdOf r.mem r₀ = lastTransId r.mem (before ++ r₀ :: rest))
    (h : TransactionIdentified env r pi (before ++ r₀ :: rest)) :
    TransactionVisible env r pi (before ++ r₀ :: rest) stop := by
  have hhead : (lastTransaction r.mem (before ++ r₀ :: rest)).head? = some r₀ := by
    rw [htrans, writesOf_write hw]
    simp only [List.head?_cons]
  have hr₀ : r₀ ∈ before ++ r₀ :: rest := by simp
  have hne : writesOf r.mem (before ++ r₀ :: rest) ≠ [] := List.ne_nil_of_mem (mem_writesOf.mpr ⟨hr₀, hw⟩)
  have hother : ∃ p ∈ writesOf r.mem (before ++ r₀ :: rest), transIdOf r.mem p ≠ r.transId := by
    by_contra hall
    simp only [not_exists, not_and, not_not] at hall
    obtain ⟨fuel, hfuel, t, pass, more, s, hpass, hright, -⟩ :=
      h.first himage htail (r₀ + 1) (before ++ r₀ :: rest).length
    obtain ⟨hcurr, -⟩ := himage.firstScan (by omega) hpass
    rw [foldl_trackRun_same hall] at hcurr
    have hsome := (hright pass List.mem_cons_self).1
    rw [hhead, hcurr] at hsome
    have heq := Option.some.inj hsome
    simp at heq
  have hfold := fun transCurr => foldl_trackRun_last (s := (r.transId, transCurr)) hne hhead (Or.inl hother)
  have hckpt : lastTransId r.mem (before ++ r₀ :: rest) ≠ ckptId := by
    intro hckpt
    obtain ⟨fuel, hfuel, t, pass, more, s, hpass, hright, -⟩ :=
      h.first himage htail 0 (before ++ r₀ :: rest).length
    obtain ⟨-, hnone⟩ := himage.firstScan (by omega) hpass
    rw [hfold 0] at hnone
    have hsome := (hright pass List.mem_cons_self).2
    rw [hnone hckpt.symm] at hsome
    cases hsome
  refine ⟨hother, hckpt, fun hlarge hend => ?_⟩
  obtain ⟨enough, hfuelOk⟩ := himage.fuelOk
  obtain ⟨bound, hbound⟩ := Bounded.exists r.mem (before ++ r₀ :: rest)
  obtain ⟨fuel, hfuel, t, pass, more, s, hpass, hright, hrest⟩ := h.first himage htail 0 (enough + 1)
  obtain ⟨windows, rfl⟩ : ∃ n, fuel = n + 1 := ⟨fuel - 1, by omega⟩
  have hfuelOk := hfuelOk (windows + 1 + 1) (by omega)
  obtain ⟨t₁, pass₁, hpass₁, -, hgoing, hlast, hloop⟩ := himage.firstWindow env htrans hw hother hckpt hfuelOk
    0 bound hbound
  obtain ⟨rfl, rfl⟩ := Prod.mk.inj (Except.ok.inj (hpass.symm.trans hpass₁))
  have hhead : ¬(t.pi.logHead = 0 ∨ t.pi.logTail = 0) := by
    rw [hgoing.start]
    exact not_or.mpr ⟨himage.start.1, hgoing.tail⟩
  obtain ⟨t₂, pass₂, more₂, hpass₂, rfl, -⟩ := traverseWindows_ok hhead (hrest (by omega))
  exact hgoing.cut himage htrans hw hid hckpt (by decide : 0 + maxPgoff ≠ 0)
    (by rw [hloop]; exact decide_eq_true hend) hfuelOk.visited hpass₂ (hright pass₂ (by simp))

theorem LogImage.identified_iff (himage : LogImage r.mem pi.logHead visited stop) (htail : pi.logTail ≠ 0)
    (hwrites : writesOf r.mem visited ≠ []) :
    TransactionIdentified env r pi visited ↔ TransactionVisible env r pi visited stop := by
  obtain ⟨before, r₀, rest, rfl, hw, htrans, hid⟩ := himage.split hwrites
  exact ⟨fun h => h.visible himage htail htrans hw hid, fun h => h.identified himage htail htrans hw⟩

end

/-! ### Logs that were appended to -/

section

variable {env : LogEnv} {r : LogRun} {m : ByteMem} {pages apages : List Nat} {k l k₀ l₀ stop : Nat}
  {es : List (Nat × NovaLogEntryInfo)} {rest : List Nat}

/-- A write entry covers pages. -/
def HasPages : NovaLogEntryInfo → Prop
  | .fileWrite data => data.numPages % 2 ^ 32 ≠ 0
  | _ => True

theorem EntryAt.entryOk {p : Nat} {e : NovaLogEntryInfo} (h : EntryAt m p e) (he : e.Ok)
    (hkind : LogKind.file.handles e.type = true) (hpages : HasPages e) (hfit : p % 4096 + e.size ≤ 4064)
    (hne : p ≠ 0) : EntryOk m p ∧ entrySize m p = e.size := by
  obtain ⟨-, hscan⟩ := h.scan he hkind hfit
  have hsize : entrySize m p = e.size := by
    rw [entrySize, hscan]
    rfl
  refine ⟨⟨hne, by rw [hscan, hsize], by rwa [hsize], fun hw => ?_⟩, hsize⟩
  have htype := h.type he
  cases e with
  | fileWrite data =>
      have hsplit : (NovaLogEntryInfo.fileWrite data).padded =
          (leBytes 1 NovaEntryType.fileWrite.code ++ leBytes 1 data.reassigned ++ leBytes 1 data.updating ++
            leBytes 1 0) ++ (leBytes 4 data.numPages ++ (leBytes 8 data.blocknr ++ leBytes 8 data.pgoff ++
            leBytes 4 data.invalidPages ++ leBytes 4 data.mtime ++ leBytes 8 data.size ++
            leBytes 8 data.epochId ++ leBytes 8 data.transId ++ leBytes 4 0 ++ leBytes 4 data.csum ++
            List.replicate (64 - data.bytes.length) 0)) := by
        simp only [NovaLogEntryInfo.padded, NovaLogEntryInfo.bytes, NovaLogEntryInfo.size, NovaFileWriteEntry.bytes,
          List.append_assoc, NovaLogEntryInfo.type, novaGetLogEntrySize]
      have hnum : (wentry m p).numPages = data.numPages % 256 ^ 4 := word_field (h.trans hsplit)
      rw [hnum]
      exact hpages
  | dirLog d =>
      have hcode : NovaEntryType.dirLog.code = NovaEntryType.fileWrite.code := htype.symm.trans hw
      exact absurd hcode (by decide)
  | setAttr d =>
      have hcode : NovaEntryType.setAttr.code = NovaEntryType.fileWrite.code := htype.symm.trans hw
      exact absurd hcode (by decide)
  | linkChange d =>
      have hcode : NovaEntryType.linkChange.code = NovaEntryType.fileWrite.code := htype.symm.trans hw
      exact absurd hcode (by decide)
  | mmapWrite d =>
      have hcode : NovaEntryType.mmapWrite.code = NovaEntryType.fileWrite.code := htype.symm.trans hw
      exact absurd hcode (by decide)
  | snapshotInfo d =>
      have hcode : NovaEntryType.snapshotInfo.code = NovaEntryType.fileWrite.code := htype.symm.trans hw
      exact absurd hcode (by decide)

/-- The way of a scan over what was laid out, in front of the way from there on. -/
theorem Written.path (hlink : LinkedTo m 0 pages) (hpages : ∀ p ∈ pages, IsPage p) (hne : pages ≠ [])
    (h : Written m pages es k l)
    (hok : ∀ e ∈ es, e.2.Ok ∧ LogKind.file.handles e.2.type = true ∧ HasPages e.2) :
    ∀ {rest : List Nat}, ScanPath m stop (pages.getD k 0 + l) rest →
      ScanPath m stop (pages.getD 0 0) (es.map Prod.fst ++ rest) := by
  induction h with
  | nil =>
      intro rest hrest
      exact hrest
  | @here es k l e h hfit hent ih =>
      intro rest hrest
      obtain ⟨he, hkind, hnum⟩ := hok (_, e) (List.mem_append_right _ (List.mem_singleton.mpr rfl))
      obtain ⟨halign, hp0, -⟩ := hpages _ (getD_mem (h.page_lt hne))
      have hmin := he.size_bounds
      obtain ⟨hentry, hsize⟩ := hent.entryOk he hkind hnum (by omega) (by omega)
      obtain ⟨hgoto, hself⟩ := scanFrom_entry hentry.size hentry.fit
      rw [List.map_append, List.append_assoc]
      refine ih (fun e he => hok e (List.mem_append_left _ he)) ?_
      refine .entry hself hentry.ne (fun hjump => ?_) hentry.size hentry.fit hentry.pages ?_
      · rw [hgoto] at hjump
        cases hjump
      · rw [hsize, Nat.add_assoc]
        exact hrest
  | @next es k l e h hleft hk hfit hent ih =>
      intro rest hrest
      obtain ⟨he, hkind, hnum⟩ := hok (_, e) (List.mem_append_right _ (List.mem_singleton.mpr rfl))
      obtain ⟨halign, hp0, -⟩ := hpages _ (getD_mem hk)
      obtain ⟨hentry, hsize⟩ := hent.entryOk he hkind hnum (by omega) hp0
      rw [List.map_append, List.append_assoc]
      refine ih (fun e he => hok e (List.mem_append_left _ he)) ?_
      refine .entry (scanFrom_left hlink hpages hk h.place_le hleft) hentry.ne (fun _ => halign) hentry.size
        hentry.fit hentry.pages ?_
      rw [hsize]
      exact hrest

theorem Written.apart (hnodup : pages.Nodup) (hpages : ∀ p ∈ pages, IsPage p) (hne : pages ≠ [])
    (h : Written m pages es k l)
    (hok : ∀ e ∈ es, e.2.Ok ∧ LogKind.file.handles e.2.type = true ∧ HasPages e.2) :
    (es.map Prod.fst).Pairwise fun p q => p + entrySize m p ≤ q ∨ q + entrySize m q ≤ p := by
  have hfar : ∀ {i j : Nat}, i < pages.length → j < pages.length → i ≠ j →
      pages.getD i 0 + 4096 ≤ pages.getD j 0 ∨ pages.getD j 0 + 4096 ≤ pages.getD i 0 := by
    intro i j hi hj hij
    have hsep : pages.getD i 0 + 0 ≠ pages.getD j 0 + 0 :=
      page_sep hnodup (fun p hp => (hpages p hp).1) hi hj hij (by omega) (by omega)
    have h1 := (hpages _ (getD_mem hi)).1
    have h2 := (hpages _ (getD_mem hj)).1
    omega
  have hold : ∀ {es : List (Nat × NovaLogEntryInfo)} {k l : Nat}, Written m pages es k l →
      (∀ e ∈ es, e.2.Ok ∧ LogKind.file.handles e.2.type = true ∧ HasPages e.2) → k < pages.length →
      ∀ p ∈ es.map Prod.fst, ∃ i o, p = pages.getD i 0 + o ∧ i ≤ k ∧ o + entrySize m p ≤ 4064 ∧
        (i = k → o + entrySize m p ≤ l) := by
    intro es k l h hok hk p hp
    obtain ⟨⟨p, e⟩, he, rfl⟩ := List.mem_map.mp hp
    obtain ⟨i, o, rfl, hi, ho, hik, -, hent⟩ := h.mem he
    obtain ⟨heok, hkind, hnum⟩ := hok _ he
    obtain ⟨halign, hp0, -⟩ := hpages _ (getD_mem (by omega : i < pages.length))
    have hmin := heok.size_bounds
    obtain ⟨-, hsize⟩ := hent.entryOk heok hkind hnum (by omega) (by omega)
    refine ⟨i, o, rfl, hi, ?_, ?_⟩
    · rw [hsize]
      exact ho
    · rw [hsize]
      exact hik
  induction h with
  | nil => exact List.Pairwise.nil
  | @here es k l e h hfit hent ih =>
      have hes : ∀ e ∈ es, e.2.Ok ∧ LogKind.file.handles e.2.type = true ∧ HasPages e.2 :=
        fun e he => hok e (List.mem_append_left _ he)
      have hk := h.page_lt hne
      rw [List.map_append]
      refine List.pairwise_append.mpr ⟨ih hes, List.pairwise_singleton _ _, fun p hp q hq => ?_⟩
      have hq : q = pages.getD k 0 + l := List.mem_singleton.mp hq
      subst hq
      obtain ⟨i, o, hpo, hi, ho, hik⟩ := hold h hes hk p hp
      by_cases heq : i = k
      · subst heq
        have := hik rfl
        omega
      · have := hfar (by omega : i < pages.length) hk heq
        obtain ⟨he, hkind, hnum⟩ := hok (_, e) (List.mem_append_right _ (List.mem_singleton.mpr rfl))
        obtain ⟨halign, hp0, -⟩ := hpages _ (getD_mem hk)
        have hmin := he.size_bounds
        obtain ⟨-, hsize⟩ := hent.entryOk he hkind hnum (by omega) (by omega)
        omega
  | @next es k l e h hleft hk hfit hent ih =>
      have hes : ∀ e ∈ es, e.2.Ok ∧ LogKind.file.handles e.2.type = true ∧ HasPages e.2 :=
        fun e he => hok e (List.mem_append_left _ he)
      rw [List.map_append]
      refine List.pairwise_append.mpr ⟨ih hes, List.pairwise_singleton _ _, fun p hp q hq => ?_⟩
      have hq : q = pages.getD (k + 1) 0 := List.mem_singleton.mp hq
      subst hq
      obtain ⟨i, o, hpo, hi, ho, hik⟩ := hold h hes (by omega) p hp
      have := hfar (by omega : i < pages.length) hk (by omega : i ≠ k + 1)
      obtain ⟨he, hkind, hnum⟩ := hok (_, e) (List.mem_append_right _ (List.mem_singleton.mpr rfl))
      obtain ⟨halign, hp0, -⟩ := hpages _ (getD_mem hk)
      obtain ⟨-, hsize⟩ := hent.entryOk he hkind hnum (by omega) hp0
      omega

theorem LinkedTo.drop {e : Nat} (h : LinkedTo m e pages) (n : Nat) : LinkedTo m e (pages.drop n) := by
  induction n generalizing pages with
  | zero => exact h
  | succ n ih =>
      cases pages with
      | nil => exact h
      | cons p pages => exact ih h.2

/-- **A log that was appended to is an image of its entries**, when the scan ends at its tail. -/
theorem LogInv.image (h : LogInv env .file r pages apages k l k₀ l₀) (hhead : r.log.sih.logHead ≠ 0)
    (hpages : ∀ e ∈ r.entries ++ r.pending, HasPages e.2)
    (hgoto : gotoNextPage r.log.mem r.tail = false) (hend : scanEntrySize r.log.mem r.tail .file = none) :
    LogImage r.log.mem r.log.sih.logHead ((r.entries ++ r.pending).map Prod.fst) r.tail := by
  have hne : pages ≠ [] := by
    rintro rfl
    exact hhead h.chains.head
  have hisPage : ∀ p ∈ pages, IsPage p := fun p hp => h.chains.isPage p (List.mem_append_left _ hp)
  have hnodup : pages.Nodup := (List.nodup_append.mp (List.nodup_append.mp h.chains.fresh.nodup).1).1
  have hheadD : r.log.sih.logHead = pages.getD 0 0 := by
    rw [h.chains.head]
    cases pages <;> rfl
  have hok : ∀ e ∈ r.entries ++ r.pending, e.2.Ok ∧ LogKind.file.handles e.2.type = true ∧ HasPages e.2 :=
    fun e he => ⟨(h.ok e he).1, (h.ok e he).2, hpages e he⟩
  obtain ⟨htail, ht0, hblock, -⟩ := h.tail.facts hne hisPage
  have hk := h.tail.page hne
  have hself : scanFrom r.log.mem r.tail = r.tail := by simp [scanFrom, hgoto]
  have hstop : ScanPath r.log.mem r.tail (pages.getD k 0 + l) [] := by
    rw [← htail]
    refine .stop hself ht0 (fun hjump => ?_) hend
    rw [hgoto] at hjump
    cases hjump
  refine ⟨⟨hhead, ?_⟩, ?_, h.written.apart hnodup hisPage hne hok, pages.drop (k + 1), ?_, ?_⟩
  · rw [hheadD]
    exact (hisPage _ (getD_mem (List.length_pos_of_ne_nil hne))).1
  · have hpath := h.written.path h.chains.linked hisPage hne hok hstop
    rw [List.append_nil] at hpath
    rw [hheadD]
    exact hpath
  · have hdrop := h.chains.linked.drop k
    rw [List.drop_eq_getElem_cons hk] at hdrop
    rw [hblock, List.getD_eq_getElem _ _ hk]
    exact hdrop
  · exact fun p hp => hisPage p (List.mem_of_mem_drop hp)

end

/-- The image of a log of one page that holds one write entry. -/
theorem oneEntry_image {m : ByteMem} (htype : novaGetEntryType m 4096 = 1) (hend : novaGetEntryType m 4160 = 0)
    (hnum : (wentry m 4096).numPages ≠ 0) (hnext : nextPage m 4096 = 0) : LogImage m 4096 [4096] 4160 := by
  have hstay : gotoNextPage m 4160 = false := by
    simp [gotoNextPage, entryLoc, logBlockTail, hend, NovaEntryType.code]
  have hself : scanFrom m 4160 = 4160 := by simp [scanFrom, hstay]
  have hw : IsWrite m 4096 := htype
  have hsize := entrySize_write hw
  have hscan : scanEntrySize m 4096 .file = some (entrySize m 4096) := by
    rw [hsize]
    simp [scanEntrySize, htype, NovaEntryType.code]
  obtain ⟨hgoto, hhead⟩ := scanFrom_entry hscan (by rw [hsize]; decide)
  have hblock : blockOff 4160 = 4096 := by decide
  refine ⟨by decide, ?_, List.pairwise_singleton _ _, [], ⟨by rw [hblock]; exact hnext, trivial⟩, by simp⟩
  refine .entry hhead (by decide) (fun h => ?_) hscan (by rw [hsize]; decide) (fun _ => hnum) ?_
  · exact absurd (hgoto.symm.trans h) (by decide)
  · rw [hsize]
    refine .stop hself (by decide) (fun h => ?_) ?_
    · exact absurd (hstay.symm.trans h) (by decide)
    · simp [scanEntrySize, hend, NovaEntryType.code]

/-- A log of one page that holds one write entry of one page. -/
def oneWriteMem (transId : UInt8) : ByteMem := fun x =>
  if x = 4096 then 1 else if x = 4100 then 1 else if x = 4144 then transId else 0

theorem oneWriteMem_word (transId : UInt8) {a n : Nat} (h : a + n ≤ 4144 ∨ 4144 < a) :
    (oneWriteMem transId).word a n = (oneWriteMem 0).word a n := by
  refine word_congr fun x h1 h2 => ?_
  have hx : x ≠ 4144 := by omega
  simp only [oneWriteMem, hx, if_false]

theorem oneWriteMem_image (transId : UInt8) : LogImage (oneWriteMem transId) 4096 [4096] 4160 := by
  have hnum : (wentry (oneWriteMem transId) 4096).numPages = (oneWriteMem 0).word 4100 4 :=
    oneWriteMem_word transId (by decide)
  have hnext : nextPage (oneWriteMem transId) 4096 = (oneWriteMem 0).word 8184 8 :=
    oneWriteMem_word transId (by decide)
  refine oneEntry_image rfl rfl ?_ ?_
  · rw [hnum]
    decide
  · rw [hnext]
    decide

section

variable {env : RecoverEnv} {r : Recovery} {pi : RecoverInode} {visited : List Nat} {stop : Nat}

end

end Parfs
