/-
The ring as its users see it, over any run.

What they rely on is said without positions and pieces: that the elements come out in the order
they were put in, with the bytes that were put in, and that an element is its user's alone until
it is set done.  The one step that would break this is left out of the runs: a put that reclaims
the tombstone which a get is about to pass.
-/
import Parfs.Proofs.SolrosSteps

namespace Parfs

open Lib

/-! ### Runs -/

/-- What those who use the ring rely on.  `k` counts puts; the get that returns the `k`th element
is the `k`th one. -/
structure SolrosOk (align size : Nat) (s : Solros) : Prop where
  /-- What was received is what was sent. -/
  fifo : ∀ (k : Nat) (r : Dequeue), s.received[k]? = some r → ∃ e, s.sent[k]? = some e ∧ e.phase = .ready ∧ r.data = e.data ∧
    r.size = e.payload.length ∧ ∀ i b, r.dest i = some b → e.payload[i]? = some b
  /-- An element is in the ring, header and all, until it is set done. -/
  inside : ∀ (k : Nat) (e : Enqueue), s.sent[k]? = some e → (∀ r, s.received[k]? = some r → r.phase ≠ .done) →
    8 ≤ e.data ∧ e.data + e.payload.length < size ∧ align ∣ e.data
  /-- Two of them do not meet. -/
  apart : ∀ (k k' : Nat) (e e' : Enqueue), k ≠ k' → s.sent[k]? = some e → s.sent[k']? = some e' →
    (∀ r, s.received[k]? = some r → r.phase ≠ .done) → (∀ r, s.received[k']? = some r → r.phase ≠ .done) →
    e.data + e.payload.length ≤ e'.data - 8 ∨ e'.data + e'.payload.length ≤ e.data - 8
  /-- What is ready is in memory, until it is set done. -/
  stored : ∀ (k : Nat) (e : Enqueue), s.sent[k]? = some e → e.phase = .ready →
    (∀ r, s.received[k]? = some r → r.phase ≠ .done) → s.rb.buff.read e.data e.payload.length = e.payload
  /-- The assertions of `solros_ring_buffer_elm_set_ready` -/
  setReady : ∀ (k : Nat) (e : Enqueue), s.sent[k]? = some e → e.phase ≠ .ready →
    (s.rb.elm (e.data - 8)).has elmStatusInit = true ∧ (s.rb.elm (e.data - 8)).has elmStatusTombstone = false
  /-- The assertions of `solros_ring_buffer_elm_set_done` -/
  setDone : ∀ (k : Nat) (r : Dequeue), s.received[k]? = some r → r.phase ≠ .done →
    (s.rb.elm (r.data - 8)).has elmStatusReady = true ∧ (s.rb.elm (r.data - 8)).has elmStatusTombstone = false ∧
      r.phase ≠ .settingTombstone

def SolrosStep (s : Solros) (a : SolrosAct) (s' : Solros) : Prop := a.run s = some s'

/-- A step of a put is none that overtakes. -/
def SolrosAct.Keeps (s : Solros) (a : SolrosAct) : Prop := a = .putStep → s.overtakes = false

section Runs

variable {rb : SolrosRing} {memory : ByteMem} {s s' : Solros} {l : Laps} {a : SolrosAct} {k align sizeHint rand : Nat} {e : Enqueue}

theorem SolrosInv.step (h : SolrosInv s l) (hguard : a.Keeps s) (hrun : SolrosStep s a s') : ∃ l', SolrosInv s' l' := by
  unfold SolrosStep SolrosAct.run at hrun
  cases a with
  | request payload => exact ⟨l, h.request hrun⟩
  | putStep => exact h.putStep (hguard rfl) hrun
  | requestGet => exact ⟨l, h.requestGet hrun⟩
  | getStep => exact h.getStep hrun
  | copyTo k i => exact ⟨l, h.copyTo hrun⟩
  | loadReady k => exact ⟨l, h.loadReady hrun⟩
  | storeReady k => exact ⟨l, h.storeReady hrun⟩
  | copyFrom k i => exact ⟨l, h.copyFrom hrun⟩
  | loadDone k => exact ⟨l, h.loadDone hrun⟩
  | storeTombstone k =>
      dsimp only at hrun
      rw [h.storeTombstone] at hrun
      simp at hrun
  | storeDone k => exact ⟨l, h.storeDone hrun⟩

theorem putStep_sizes (hrun : s.putStep = some s') : s'.rb.alignMask = s.rb.alignMask ∧ s'.rb.size = s.rb.size := by
  unfold Solros.putStep at hrun
  cases hput : s.put with
  | reap req l =>
      rw [hput] at hrun
      cases hturn : l.turn s.rb with
      | mk l' more => cases more <;> simp [hturn, Solros.reaped] at hrun <;> subst hrun <;> exact ⟨rfl, rfl⟩
  | reapAggressively req l =>
      rw [hput] at hrun
      cases hturn : l.turn s.rb with
      | mk l' more => cases more <;> simp [hturn, Solros.reapedAggressively] at hrun <;> subst hrun <;> exact ⟨rfl, rfl⟩
  | _ =>
      rw [hput] at hrun
      dsimp only at hrun
      grind [Solros.putElm, SolrosRing.storeElm]

/-- The sizes of a ring stay. -/
theorem SolrosStep.sizes (hrun : SolrosStep s a s') : s'.rb.alignMask = s.rb.alignMask ∧ s'.rb.size = s.rb.size := by
  unfold SolrosStep at hrun
  cases a with
  | putStep => exact putStep_sizes hrun
  | request payload => grind [SolrosAct.run, Solros.request]
  | requestGet => grind [SolrosAct.run, Solros.requestGet]
  | getStep =>
      rw [SolrosAct.run, Solros.getStep] at hrun
      cases hget : s.get <;> simp [hget] at hrun <;> subst hrun <;> exact ⟨rfl, rfl⟩
  | copyTo k i => grind [SolrosAct.run, Solros.copyTo]
  | loadReady k => grind [SolrosAct.run, Solros.loadReady]
  | storeReady k => grind [SolrosAct.run, Solros.storeReady, SolrosRing.storeStatus]
  | copyFrom k i => grind [SolrosAct.run, Solros.copyFrom]
  | loadDone k => grind [SolrosAct.run, Solros.loadDone]
  | storeTombstone k => grind [SolrosAct.run, Solros.storeTombstone, SolrosRing.storeStatus]
  | storeDone k => grind [SolrosAct.run, Solros.storeDone, SolrosRing.storeStatus]

/-- The piece of an element that is not done. -/
theorem SolrosInv.piece (h : SolrosInv s l) (he : s.sent[k]? = some e) (huse : ∀ r, s.received[k]? = some r → r.phase ≠ .done) :
    ∃ g ∈ l.pieces, ∃ owner, g.elem = some k ∧ Holds s.rb.buff s.rb.size e g (statusOf owner e.isReady) := by
  cases hr : s.received[k]? with
  | some r =>
      obtain ⟨g, hg, e', helem, -, he', hdel, hholds⟩ := h.using hr (huse r hr)
      rw [he, Option.some.injEq] at he'
      subst he'
      have hready : e.isReady = true := decide_eq_true hdel.ready
      exact ⟨g, hg, false, helem, by rw [hready]; exact hholds⟩
  | none =>
      obtain ⟨g, hg, helem⟩ := h.around.waiting k (List.getElem?_eq_none_iff.mp hr) (List.getElem?_eq_some_iff.mp he).1
      cases h.around.pieces g hg with
      | tombstone hnone => simp [hnone] at helem
      | waiting k' e' owner hk _ hsent _ holds =>
          obtain rfl : k' = k := Option.some.inj (hk.symm.trans helem)
          rw [he, Option.some.injEq] at hsent
          subst hsent
          exact ⟨g, hg, owner, helem, holds⟩
      | taken k' e' r hk _ _ hreceived =>
          obtain rfl : k' = k := Option.some.inj (hk.symm.trans helem)
          simp [hr] at hreceived
      | done k' r hk _ hreceived =>
          obtain rfl : k' = k := Option.some.inj (hk.symm.trans helem)
          simp [hr] at hreceived

theorem statusOf_init {size padding : Nat} {owner ready : Bool} :
    (SolrosElm.mk size padding (statusOf owner ready)).has elmStatusInit = true := by
  rw [SolrosElm.has_mk]
  cases owner <;> cases ready <;> decide

theorem SolrosInv.ok (h : SolrosInv s l) (hmask : s.rb.alignMask + 1 = align) : SolrosOk align s.rb.size s := by
  refine ⟨?_, ?_, ?_, ?_, ?_, ?_⟩
  · intro k r hr
    obtain ⟨e, he, hdel⟩ := h.around.delivered k r hr
    exact ⟨e, he, hdel.ready, hdel.data, hdel.size, hdel.dest⟩
  · intro k e he huse
    obtain ⟨g, hg, owner, helem, hholds⟩ := h.piece he huse
    have hdata := hholds.data
    have hfits := hholds.fits
    have hinside := hholds.inside
    refine ⟨by omega, by omega, ?_⟩
    have hdiv := Nat.div_add_mod g.pos s.rb.size
    have haligned := h.around.aligned g hg
    rw [← hdiv, Nat.add_assoc] at haligned
    rw [hdata, ← hmask]
    exact (Nat.dvd_add_right (h.around.ok.size.mul_right _)).mp haligned
  · intro k k' e e' hne he he' huse huse'
    obtain ⟨g, hg, owner, helem, hholds⟩ := h.piece he huse
    obtain ⟨g', hg', owner', helem', hholds'⟩ := h.piece he' huse'
    have hdata := hholds.data
    have hfits := hholds.fits
    have hdata' := hholds'.data
    have hfits' := hholds'.fits
    have hreach : g.reach = g.size := if_neg (by rw [helem]; simp)
    have hreach' : g'.reach = g'.size := if_neg (by rw [helem']; simp)
    have hdiff : g ≠ g' := fun heq => hne (Option.some.inj (helem.symm.trans (heq ▸ helem')))
    rcases h.around.apart hg hg' hdiff with hle | hle <;> omega
  · intro k e he hready huse
    obtain ⟨g, hg, owner, helem, hholds⟩ := h.piece he huse
    refine List.ext_getElem (by simp) fun i hi hi' => ?_
    have hbyte := hholds.copied i (by rw [hholds.full (by rw [hready]; simp), Finset.mem_range]; exact hi')
    rw [List.getElem?_eq_getElem hi', Option.some.injEq] at hbyte
    rw [hbyte]
    simp [ByteMem.read]
  · intro k e he hphase
    obtain ⟨g, hg, owner, helem, hpos, hnew, hholds⟩ := h.sending he hphase
    rw [elm_eq, hholds.data, Nat.add_sub_cancel, hholds.header]
    exact ⟨statusOf_init, statusOf_tombstone⟩
  · intro k r hr hphase
    obtain ⟨g, hg, e, helem, hpos, he, hdel, hholds⟩ := h.using hr hphase
    rw [elm_eq, hdel.data, hholds.data, Nat.add_sub_cancel, hholds.header]
    exact ⟨statusOf_ready, statusOf_tombstone, hdel.phase⟩

theorem startOffsetColoring_ok (rand : Nat) (hlo : 8 ≤ align) (hpage : align ∣ 4096) :
    align ∣ startOffsetColoring align rand + 8 ∧
      (startOffsetColoring align rand + 8 ≤ align ∨ startOffsetColoring align rand + 8 + align ≤ 4096) := by
  obtain ⟨n, hn⟩ := hpage
  have hcolors : 4096 / align = n := by rw [hn, Nat.mul_div_cancel_left _ (by omega)]
  unfold startOffsetColoring
  rw [hcolors]
  dsimp only
  by_cases hn' : n > 1
  · rw [if_pos hn']
    have hlt := Nat.mod_lt rand (show 0 < n - 1 by omega)
    obtain ⟨color, hcolor⟩ : ∃ color, 1 + rand % (n - 1) = color := ⟨_, rfl⟩
    rw [hcolor]
    have hle : align ≤ color * align := Nat.le_mul_of_pos_left align (by omega)
    have hmax : (color + 1) * align ≤ n * align := Nat.mul_le_mul_right align (by omega)
    rw [Nat.add_mul, Nat.one_mul, Nat.mul_comm n, ← hn] at hmax
    rw [Nat.sub_add_cancel (by omega)]
    exact ⟨Nat.dvd_mul_left _ _, Or.inr hmax⟩
  · rw [if_neg hn', Nat.one_mul, Nat.sub_add_cancel hlo]
    exact ⟨dvd_rfl, Or.inl (Nat.le_refl _)⟩

/-- A ring that nothing is in. -/
theorem solrosInv_new (hok : rb.Ok) (hhead : rb.alignMask + 1 ∣ rb.head + 8) (hlt : rb.head + 9 ≤ rb.size) (htail : rb.tail = rb.head)
    (htail2 : rb.tail2 = rb.head) : SolrosInv (Solros.new rb) ⟨rb.head, rb.head, rb.head, rb.head, []⟩ := by
  have hmod : rb.head = rb.head % rb.size := (Nat.mod_eq_of_lt (by omega)).symm
  refine ⟨⟨hok, rfl, ?_, hmod, htail.trans hmod, htail2.trans hmod, hhead, by simp, by simp, by simp [Between], by simp [Between],
    Nat.le_refl _, Nat.le_refl _, Nat.le_refl _, by simp, List.Pairwise.nil, ?_, ?_, ?_⟩, .idle (Nat.le_refl _), .idle rfl⟩
  · show rb.head + 9 ≤ rb.head + rb.size
    omega
  · intro k _ hk
    simp [Solros.new] at hk
  · intro k r hr
    simp [Solros.new] at hr
  · intro k r hr
    simp [Solros.new] at hr

/-- The ring that is made. -/
theorem solrosRingBufferCreate_ok (hcreate : solrosRingBufferCreate sizeHint align rand (some memory) = .ok rb)
    (hlo : 8 ≤ align) (hhi : align ≤ 4096) (hsmall : rb.size < 2 ^ 32) :
    rb.alignMask + 1 = align ∧ ∃ l, SolrosInv (Solros.new rb) l := by
  unfold solrosRingBufferCreate at hcreate
  by_cases hpow : align &&& (align - 1) ≠ 0
  · rw [if_pos hpow] at hcreate
    simp at hcreate
  rw [if_neg hpow] at hcreate
  dsimp only at hcreate
  rw [Except.ok.injEq] at hcreate
  obtain ⟨b, rfl⟩ : align.isPowerOfTwo := (Nat.and_sub_one_eq_zero_iff_isPowerOfTwo (by omega)).mp (not_not.mp hpow)
  have hb : b ≤ 12 := (Nat.pow_le_pow_iff_right (show 1 < 2 by decide)).mp (show 2 ^ b ≤ 2 ^ 12 from hhi)
  have hb' : 3 ≤ b := (Nat.pow_le_pow_iff_right (show 1 < 2 by decide)).mp (show 2 ^ 3 ≤ 2 ^ b from hlo)
  have hpage : 2 ^ b ∣ 4096 := Nat.pow_dvd_pow 2 hb
  have hmask : 2 ^ b - 1 + 1 = 2 ^ b := Nat.sub_add_cancel (by omega)
  obtain ⟨hstart, hstartLe⟩ := startOffsetColoring_ok rand hlo hpage
  obtain ⟨hsize, hsizeLe, hsizeLe'⟩ : 4096 ∣ rb.size ∧ 4096 ≤ rb.size ∧ 2 ^ b + 8 ≤ rb.size := by
    rw [← hcreate]
    dsimp only
    by_cases hhuge : sizeHint > 2 * 1024 * 1024 * 3
    · rw [if_pos hhuge]
      omega
    · rw [if_neg hhuge]
      omega
  have hmask' : rb.alignMask + 1 = 2 ^ b := by rw [← hcreate]; exact hmask
  have hhead : rb.head = startOffsetColoring (2 ^ b) rand := by rw [← hcreate]
  refine ⟨hmask', _, solrosInv_new ⟨?_, ?_, hsmall, by omega⟩ ?_ (by omega) (by rw [← hcreate]) (by rw [← hcreate])⟩
  · rw [hmask']
    exact Nat.pow_dvd_pow 2 hb'
  · rw [hmask']
    exact hpage.trans hsize
  · rw [hmask', hhead]
    exact hstart

/-- The invariant holds at every step, and the ring stays as it was made. -/
theorem solrosInv_run (hcreate : solrosRingBufferCreate sizeHint align rand (some memory) = .ok rb) (hlo : 8 ≤ align)
    (hhi : align ≤ 4096) (hsmall : rb.size < 2 ^ 32)
    (hrun : Runs (Guarded SolrosAct.Keeps SolrosStep) (Solros.new rb) s) :
    (∃ l, SolrosInv s l) ∧ s.rb.alignMask + 1 = align ∧ s.rb.size = rb.size := by
  obtain ⟨hmask, hnew⟩ := solrosRingBufferCreate_ok hcreate hlo hhi hsmall
  let Inv (s : Solros) : Prop := (∃ l, SolrosInv s l) ∧ s.rb.alignMask + 1 = align ∧ s.rb.size = rb.size
  have hkeep : ∀ s a s', Inv s → Guarded SolrosAct.Keeps SolrosStep s a s' → Inv s' := by
    intro s a s' ⟨⟨l, h⟩, hmask, hsize⟩ ⟨hguard, hstep⟩
    obtain ⟨hmask', hsize'⟩ := hstep.sizes
    exact ⟨h.step hguard hstep, by rw [hmask', hmask], by rw [hsize', hsize]⟩
  exact hrun.invariant hkeep ⟨hnew, hmask, rfl⟩

/-- **Whoever puts, whoever gets and whoever copies, in whatever order**: the elements come out as
they were put in, one after the other, and nobody's bytes are anybody else's before it is done. -/
theorem solros_run (hcreate : solrosRingBufferCreate sizeHint align rand (some memory) = .ok rb) (hlo : 8 ≤ align)
    (hhi : align ≤ 4096) (hsmall : rb.size < 2 ^ 32)
    (hrun : Runs (Guarded SolrosAct.Keeps SolrosStep) (Solros.new rb) s) : SolrosOk align rb.size s := by
  obtain ⟨⟨l, h⟩, hmask, hsize⟩ := solrosInv_run hcreate hlo hhi hsmall hrun
  rw [← hsize]
  exact h.ok hmask

/-! ### A message -/

def solrosRun (s : Solros) (as : List SolrosAct) : Option Solros :=
  as.foldlM (fun s a => if a = .putStep ∧ s.overtakes then none else a.run s) s

theorem runs_of_solrosRun {as : List SolrosAct} (h : solrosRun s as = some s') :
    Runs (Guarded SolrosAct.Keeps SolrosStep) s s' := by
  induction as generalizing s with
  | nil =>
      cases h
      exact Runs.refl _
  | cons a as ih =>
      obtain ⟨s₁, hstep, hrest⟩ := Option.bind_eq_some_iff.mp h
      dsimp only at hstep
      by_cases hc : a = .putStep ∧ s.overtakes = true
      · rw [if_pos hc] at hstep
        simp at hstep
      · rw [if_neg hc] at hstep
        exact (Runs.single ⟨fun ha => by simpa [ha] using hc, hstep⟩).trans (ih hrest)

/-- A ring that is as small as can be. -/
def smallRing : SolrosRing := ⟨4096, 63, fun _ => 0, 56, 56, 56⟩

theorem smallRing_create : solrosRingBufferCreate 0 64 0 (some fun _ => 0) = .ok smallRing := by
  rfl

/-- Two bytes are put, got and set done. -/
def twoBytes : List SolrosAct :=
  [.request [7, 9], .putStep, .putStep, .putStep, .putStep, .putStep, .putStep, .copyTo 0 1, .requestGet, .copyTo 0 0, .loadReady 0, .storeReady 0, .getStep, .getStep,
    .getStep, .getStep, .getStep, .getStep, .copyFrom 0 0, .copyFrom 0 1, .loadDone 0, .storeDone 0]

/-- What is seen of a ring in the end. -/
def Solros.view (s : Solros) : List (Nat × List (Option UInt8) × DequeuePhase) :=
  s.received.map fun r => (r.data, (List.range r.size).map r.dest, r.phase)

theorem solros_run_twoBytes :
    ∃ s, solrosRun (Solros.new smallRing) twoBytes = some s ∧ s.view = [(64, [some 7, some 9], .done)] ∧
      SolrosOk 64 4096 s := by
  have hview : (solrosRun (Solros.new smallRing) twoBytes).map Solros.view = some [(64, [some 7, some 9], .done)] := by
    decide +kernel
  obtain ⟨s, hs, hview⟩ := Option.map_eq_some_iff.mp hview
  exact ⟨s, hs, hview, solros_run smallRing_create (by decide) (by decide) (by decide) (runs_of_solrosRun hs)⟩

end Runs

end Parfs
