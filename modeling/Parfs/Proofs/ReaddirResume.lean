/-
Listings in several calls.

A listing that runs out of room leaves the hash of the dentry it held back as its position,
and the next call goes on where the tree says that dentry is.  As long as it is there, what is
listed and what the rest of the log holds make up the directory, whatever is added or removed
in between.  When it is gone, nothing more is listed, and when its name was added again, the
listing goes on behind what it has not reached yet.
-/
import Parfs.Proofs.Readdir

namespace Parfs

open Lib

/-- A directory and a listing of it. -/
structure Enumeration where
  state : ListedState
  /-- `ctx->pos` -/
  pos : Nat
  /-- the names the calls have put out -/
  emitted : List (List UInt8)
  /-- the names that were there all the time -/
  present : List UInt8 → Prop
  /-- whether the directory was changed in between -/
  changed : Prop
  /-- the last call came to the end, or had room and put nothing out -/
  ended : Prop

/-- The listing is about to start. -/
def Enumeration.start (s : ListedState) : Enumeration :=
  ⟨s, 0, [], fun name => s.names name ≠ none, False, False⟩

inductive EnumAct where
  | modify (a : ListedAct)
  | read (room : Nat)

/-- The directory changes, or the next call is made. -/
inductive EnumStep (env : BallocEnv) (renv : ReaddirEnv) : Enumeration → EnumAct → Enumeration → Prop
  | modify {e : Enumeration} {a : ListedAct} {t : ListedState} (h : ListedStep env renv e.state a t) :
      EnumStep env renv e (.modify a)
        { e with state := t, present := fun name => e.present name ∧ t.names name ≠ none, changed := True }
  | read {e : Enumeration} {room : Nat} {ctx : DirContext} {res : Except Errno Unit} (hmore : ¬ e.ended)
      (h : novaReaddirFast env renv e.state.file ⟨e.pos, room, []⟩ = (ctx, res)) :
      EnumStep env renv e (.read room)
        { e with
          pos := ctx.pos
          emitted := e.emitted ++ ctx.emitted.map Dirent.name
          ended := ctx.pos = readdirEnd ∨ (0 < room ∧ ctx.emitted = []) }

/-- A transaction runs to its end, and leaves the dentry alone whose hash is the position.  No
name that is there when a call is made has a hash that is a position of another meaning. -/
def EnumAct.Safe (env : BallocEnv) (e : Enumeration) : EnumAct → Prop
  | .modify a => a.Completes env e.state ∧
      match a with
      | .tx ops sEpochId verifies => ∀ name p, e.state.names name = some p → dirKey name = e.pos →
          (applyTx env sEpochId verifies e.state ops).names name = some p
      | _ => True
  | .read _ => ∀ name, e.state.names name ≠ none → dirKey name ≠ 0 ∧ dirKey name ≠ readdirEnd

section

variable {env : BallocEnv} {renv : ReaddirEnv} {s t : ListedState} {us : List NovaInodeUpdate}
  {f : ListedDir} {A B es : List DirLogEntry} {p q : Nat}

/-! ### What changes between two calls -/

/-- The log grows at its end, and a name that comes or moves gets a dentry there. -/
structure Grows (s t : ListedState) : Prop where
  log : ∃ extra, t.file.log = s.file.log ++ extra
  names : ∀ name p, t.names name = some p → s.names name = some p ∨ .dirLog p ∉ s.file.log

theorem Grows.refl (s : ListedState) : Grows s s := ⟨⟨[], (List.append_nil _).symm⟩, fun _ _ hp => Or.inl hp⟩

theorem Grows.trans {r : ListedState} (h : Grows r s) (h' : Grows s t) : Grows r t := by
  obtain ⟨extra, hlog⟩ := h.log
  obtain ⟨extra', hlog'⟩ := h'.log
  refine ⟨⟨extra ++ extra', by rw [hlog', hlog, List.append_assoc]⟩, fun name p hp => ?_⟩
  rcases h'.names name p hp with hp | hp
  · exact h.names name p hp
  · refine Or.inr fun hmem => hp ?_
    rw [hlog]
    exact List.mem_append_left _ hmem

theorem ListedInv.grows {op : DirOp} {d : NovaDir} {u : NovaInodeUpdate} (h : ListedInv env renv s us)
    (hen : op.Enabled s.base) (hnew : ∀ p, op.call.append.written = some p → DirLogEntry.dirLog p ∉ s.file.log)
    (hrun : op.run env s.file.dir = (d, .ok u)) : Grows s (op.logged s d u) := by
  have heff := h.callEffect hen hnew hrun
  refine ⟨⟨_, rfl⟩, fun name p hp => ?_⟩
  replace hp : Function.update s.names op.call.name (op.binding u) name = some p := hp
  by_cases hname : name = op.call.name
  · rw [hname, Function.update_self] at hp
    exact Or.inr (heff.new p (heff.bound p hp).1)
  · rw [Function.update_of_ne hname] at hp
    exact Or.inl hp

theorem ListedInv.ops_grows (ops : List DirOp) : ∀ {s : ListedState} {us : List NovaInodeUpdate},
    ListedInv env renv s us → OpsEnabled env renv s ops → ∀ {t : ListedState} {us' : List NovaInodeUpdate},
      runOps env s us ops = (t, .ok us') → Grows s t := by
  induction ops with
  | nil =>
      intro s us _ _ t us' hrun
      obtain ⟨rfl, -⟩ := Prod.mk.inj hrun
      exact Grows.refl s
  | cons op ops ih =>
      rintro s us h ⟨⟨hen, hnew, hmode⟩, hrest⟩ t us' hrun
      rw [runOps] at hrun
      rcases hop : op.run env s.file.dir with ⟨d, e | u⟩
      · rw [hop] at hrun
        cases hrun
      · rw [hop] at hrun
        exact (h.grows hen hnew hop).trans (ih (h.logged hen hnew hmode hop) (hrest d u hop) hrun)

theorem foldl_invalidate_log (sEpochId : Nat) (verifies : Bool) : ∀ (us : List NovaInodeUpdate) (f : ListedDir),
    (us.foldl (novaInvalidateDentries sEpochId verifies) f).log = f.log
  | [], _ => rfl
  | u :: us, f => (foldl_invalidate_log sEpochId verifies us _).trans
      (novaInvalidateDentries_spec sEpochId verifies f u).log

/-- **A step that runs to its end only adds to the log.** -/
theorem ListedInv.step_grows {a : ListedAct} (h : ListedInv env renv s [])
    (hstep : Guarded (ListedAct.Completes env) (ListedStep env renv) s a t) : Grows s t := by
  obtain ⟨hdone, hstep⟩ := hstep
  cases hstep with
  | @tx ops sEpochId verifies hen =>
      unfold applyTx
      rcases hdone with ⟨t, us, hrun⟩ | ⟨c, ino, slab, update, rfl⟩
      · rw [hrun]
        obtain ⟨⟨extra, hlog⟩, hnames⟩ := ListedInv.ops_grows ops h hen hrun
        exact ⟨⟨extra, (foldl_invalidate_log sEpochId verifies us t.file).trans hlog⟩, hnames⟩
      · obtain ⟨⟨hen, hnew, -⟩, -⟩ := id hen
        rcases hop : (DirOp.add c ino slab update).run env s.file.dir with ⟨d, e | u⟩
        · have hrun : runOps env s [] [.add c ino slab update] =
              ({ s with file := { s.file with dir := d } }, .error e) := by
            rw [runOps, hop]
          rw [hrun]
          exact ⟨⟨[], (List.append_nil _).symm⟩, fun _ _ hp => Or.inl hp⟩
        · have hrun : runOps env s [] [.add c ino slab update] =
              ((DirOp.add c ino slab update).logged s d u, .ok []) := by
            rw [runOps, hop]
            rfl
          rw [hrun]
          exact h.grows hen hnew hop
  | setAttr => exact ⟨⟨[.setAttr], rfl⟩, fun _ _ hp => Or.inl hp⟩
  | linkChange => exact ⟨⟨[.linkChange], rfl⟩, fun _ _ hp => Or.inl hp⟩
  | changeParent => exact ⟨⟨[], (List.append_nil _).symm⟩, fun _ _ hp => Or.inl hp⟩

/-! ### One call -/

theorem ListedDir.listed_append : f.listed (A ++ B) = f.listed A ++ f.listed B := by
  unfold ListedDir.listed
  rw [List.filterMap_append, List.filter_append]

/-- A log split where a listing stops. -/
theorem ListedDir.split_listed {L2 : List Nat} : ∀ {es : List DirLogEntry} {L1 : List Nat},
    f.listed es = L1 ++ q :: L2 → ∃ A B, es = A ++ .dirLog q :: B ∧ f.listed A = L1 := by
  intro es
  induction es with
  | nil =>
      intro L1 h
      rw [ListedDir.listed_nil] at h
      exact absurd h.symm (by simp)
  | cons e es ih =>
      intro L1 h
      cases e with
      | setAttr =>
          obtain ⟨A, B, rfl, hA⟩ := ih h
          exact ⟨.setAttr :: A, B, rfl, hA⟩
      | linkChange =>
          obtain ⟨A, B, rfl, hA⟩ := ih h
          exact ⟨.linkChange :: A, B, rfl, hA⟩
      | dirLog p =>
          rw [ListedDir.listed_dirLog] at h
          by_cases hp : f.lists p = true
          · rw [if_pos hp] at h
            cases L1 with
            | nil =>
                obtain ⟨rfl, -⟩ := List.cons.inj h
                exact ⟨[], es, rfl, rfl⟩
            | cons x L1 =>
                obtain ⟨rfl, hrest⟩ := List.cons.inj h
                obtain ⟨A, B, rfl, hA⟩ := ih hrest
                exact ⟨.dirLog p :: A, B, rfl, by rw [ListedDir.listed_dirLog, if_pos hp, hA]⟩
          · rw [if_neg hp] at h
            obtain ⟨A, B, rfl, hA⟩ := ih h
            exact ⟨.dirLog p :: A, B, rfl, by rw [ListedDir.listed_dirLog, if_neg hp, hA]⟩

/-- Where the listing stands: at the start, or at the dentry of a name. -/
def Stands (s : ListedState) (pos : Nat) (A B : List DirLogEntry) : Prop :=
  (pos = 0 ∧ A = []) ∨ ∃ p name rest, B = .dirLog p :: rest ∧ s.names name = some p ∧ dirKey name = pos

/-- The tree leads back to the dentry the listing stands at. -/
theorem ListedInv.start (h : ListedInv env renv s []) {pos : Nat} (hlog : s.file.log = A ++ B)
    (hat : Stands s pos A B) (hkeys : ∀ name, s.names name ≠ none → dirKey name ≠ 0 ∧ dirKey name ≠ readdirEnd) :
    readdirStart env s.file pos = some B := by
  unfold readdirStart
  rcases hat with ⟨rfl, rfl⟩ | ⟨p, name, rest, rfl, hp, rfl⟩
  · rw [if_pos rfl, hlog, List.nil_append]
  · obtain ⟨h0, hend⟩ := hkeys name (by simp [hp])
    have hfind : novaFindNextDentryAddr env s.file.dir (dirKey name) = some p := by
      have htable := h.dir.keyed.stored name p hp
      unfold novaFindNextDentryAddr
      rcases novaFindDirnode_spec h.dir.nodes (dirKey name) with ⟨n, A', B', hfind, -, hkey, hn⟩ | ⟨res, -, hn⟩
      · have hnp : n.direntry = p := Option.some.inj (hn.symm.trans htable)
        rw [show s.file.dir.rbTree = s.base.dir.rbTree from rfl, hfind]
        simp [hkey, hnp]
      · exact absurd (hn.symm.trans htable) (by simp)
    have hnodup := h.nodup
    rw [hlog, List.filterMap_append, List.filterMap_cons_some (show DirLogEntry.dentry (.dirLog p) = some p from rfl)]
      at hnodup
    have hnot : .dirLog p ∉ A := by
      intro hmem
      exact (List.nodup_append.mp hnodup).2.2 p (List.mem_filterMap.mpr ⟨_, hmem, rfl⟩) p List.mem_cons_self rfl
    rw [if_neg h0, if_neg hend, hfind, Option.map_some, ListedDir.logFrom, hlog]
    congr 1
    rw [List.dropWhile_append_of_pos, List.dropWhile_cons_of_neg]
    · simp
    · intro e he
      have hne : e ≠ .dirLog p := fun heq => hnot (heq ▸ he)
      simpa using hne

/-- **One call**: what it puts out of the rest of the log, and where it stops. -/
theorem ListedInv.read (h : ListedInv env renv s []) (hmedia : ∀ p, renv.verifies p = true) {pos : Nat}
    (hlog : s.file.log = A ++ B) (hat : Stands s pos A B)
    (hkeys : ∀ name, s.names name ≠ none → dirKey name ≠ 0 ∧ dirKey name ≠ readdirEnd) (room : Nat) :
    ∃ ctx, novaReaddirFast env renv s.file ⟨pos, room, []⟩ = (ctx, .ok ()) ∧
      ctx.emitted.map Dirent.name =
        ((s.file.listed B).take room).map (fun p => (s.file.dir.dentries p).name) ∧
      ctx.pos = s.file.stopsAt (s.file.listed B) room := by
  have hread : Readable renv s.file B := by
    refine ⟨hmedia, fun p hp => (h.present (fun _ => h.mem_listed) ?_).2.2.2⟩
    rw [hlog, ListedDir.listed_append]
    exact List.mem_append_right _ hp
  have hrun : novaReaddirFast env renv s.file ⟨pos, room, []⟩ = (⟨s.file.stopsAt (s.file.listed B) room,
      room - (s.file.listed B).length, [] ++ (late (s.file.dirent renv) (s.file.listed B)).take room⟩, .ok ()) := by
    unfold novaReaddirFast
    rw [if_neg h.logHead]
    dsimp only
    rw [h.start hlog hat hkeys]
    exact novaReaddirFastLoop_spec B pos room 0 [] hread
  refine ⟨_, hrun, ?_, rfl⟩
  rw [List.nil_append, List.map_take, List.map_take,
    late_map (fun _ _ => rfl : ∀ p q, (s.file.dirent renv p q).name = (s.file.dir.dentries p).name)]

/-! ### The whole listing -/

/-- The names of the dentries that are listed. -/
def ListedDir.listedNames (f : ListedDir) (es : List DirLogEntry) : List (List UInt8) :=
  (f.listed es).map fun p => (f.dir.dentries p).name

/-- What is listed already, and what there is still to come. -/
structure EnumInv (env : BallocEnv) (renv : ReaddirEnv) (e : Enumeration) (A B : List DirLogEntry) : Prop where
  listed : ListedInv env renv e.state []
  log : e.state.file.log = A ++ B
  stands : ¬ e.ended → Stands e.state e.pos A B
  done : e.ended → ∀ name, e.present name → name ∈ e.emitted
  present : ∀ name, e.present name → e.state.names name ≠ none
  ahead : ∀ name p, e.present name → e.state.names name = some p → name ∈ e.emitted ∨ .dirLog p ∈ B
  still : ¬ e.changed → e.emitted = e.state.file.listedNames A
  rest : ¬ e.changed → e.ended → e.state.file.listed B = []

section Enum

variable {e e' : Enumeration} {a : EnumAct}

theorem EnumInv.init (h : ListedInv env renv s []) :
    EnumInv env renv (Enumeration.start s) [] s.file.log := by
  refine ⟨h, rfl, fun _ => Or.inl ⟨rfl, rfl⟩, nofun, fun _ hp => hp, fun name p _ hp => Or.inr (h.named name p hp).1,
    fun _ => rfl, nofun⟩

/-- **The directory changes.** -/
theorem EnumInv.modify {act : ListedAct} (h : EnumInv env renv e A B) (hsafe : (EnumAct.modify act).Safe env e)
    (hstep : ListedStep env renv e.state act t) : ∃ extra, EnumInv env renv
      { e with state := t, present := fun name => e.present name ∧ t.names name ≠ none, changed := True }
      A (B ++ extra) := by
  obtain ⟨hdone, hkeep⟩ := hsafe
  have ht : ListedInv env renv t [] := h.listed.step ⟨hdone, hstep⟩
  obtain ⟨⟨extra, hlog⟩, hnames⟩ := h.listed.step_grows ⟨hdone, hstep⟩
  refine ⟨extra, ht, ?_, fun hmore => ?_, fun hend name hp => h.done hend name hp.1, fun name hp => hp.2,
    fun name p hp hname => ?_, fun hc => absurd trivial hc, fun hc => absurd trivial hc⟩
  · rw [hlog, h.log, List.append_assoc]
  · rcases h.stands hmore with hzero | ⟨p, name, rest, hB, hp, hkey⟩
    · exact Or.inl hzero
    · refine Or.inr ⟨p, name, rest ++ extra, by rw [hB, List.cons_append], ?_, hkey⟩
      cases hstep with
      | tx => exact hkeep name p hp hkey
      | setAttr => exact hp
      | linkChange => exact hp
      | changeParent => exact hp
  · -- a dentry that is not one of before stands behind the old end
    rcases hnames name p hname with hold | hnew
    · exact (h.ahead name p hp.1 hold).imp_right fun hmem => List.mem_append_left _ hmem
    · have hmem := (ht.named name p hname).1
      rw [hlog] at hmem
      exact Or.inr (List.mem_append_right _ ((List.mem_append.mp hmem).resolve_left hnew))

/-- **The next call.** -/
theorem EnumInv.read {room : Nat} {ctx : DirContext} {res : Except Errno Unit} (h : EnumInv env renv e A B)
    (hmedia : ∀ p, renv.verifies p = true) (hsafe : (EnumAct.read room).Safe env e) (hmore : ¬ e.ended)
    (hrun : novaReaddirFast env renv e.state.file ⟨e.pos, room, []⟩ = (ctx, res)) : ∃ A' B', EnumInv env renv
      { e with
        pos := ctx.pos
        emitted := e.emitted ++ ctx.emitted.map Dirent.name
        ended := ctx.pos = readdirEnd ∨ (0 < room ∧ ctx.emitted = []) } A' B' := by
  obtain ⟨ctx', hrun', hemitted, hpos⟩ := h.listed.read hmedia h.log (h.stands hmore) hsafe room
  obtain ⟨rfl, -⟩ := Prod.mk.inj (hrun.symm.trans hrun')
  have hlive : ∀ {name p}, e.state.names name = some p → .dirLog p ∈ B →
      p ∈ e.state.file.listed B ∧ (e.state.file.dir.dentries p).name = name := by
    intro name p hp hmem
    have hlisted := ListedDir.mem_listed.mp (h.listed.mem_listed.mpr ⟨name, hp⟩)
    exact ⟨ListedDir.mem_listed.mpr ⟨hmem, hlisted.2⟩, (h.listed.dir.linked name p hp).1⟩
  cases hdrop : (e.state.file.listed B).drop room with
  | nil =>
      -- the listing comes to its end
      have hend : ctx.pos = readdirEnd := by
        rw [hpos, ListedDir.stopsAt, hdrop]
      have hall : (e.state.file.listed B).take room = e.state.file.listed B :=
        List.take_of_length_le (List.drop_eq_nil_iff.mp hdrop)
      have hcover : ∀ name p, e.present name → e.state.names name = some p →
          name ∈ e.emitted ++ ctx.emitted.map Dirent.name := by
        intro name p hp hname
        rcases h.ahead name p hp hname with hmem | hmem
        · exact List.mem_append_left _ hmem
        · obtain ⟨hin, hname⟩ := hlive hname hmem
          rw [hemitted, hall]
          exact List.mem_append_right _ (List.mem_map.mpr ⟨p, hin, hname⟩)
      refine ⟨A ++ B, [], h.listed, by rw [List.append_nil]; exact h.log, fun hn => absurd (Or.inl hend) hn,
        fun _ name hp => ?_, h.present, fun name p hp hname => Or.inl (hcover name p hp hname), fun hc => ?_,
        fun _ _ => rfl⟩
      · obtain ⟨p, hname⟩ := Option.ne_none_iff_exists'.mp (h.present name hp)
        exact hcover name p hp hname
      · show e.emitted ++ ctx.emitted.map Dirent.name = e.state.file.listedNames (A ++ B)
        rw [h.still hc, hemitted, hall, ListedDir.listedNames, ListedDir.listedNames, ListedDir.listed_append,
          List.map_append]
  | cons q L2 =>
      have hsplit : e.state.file.listed B = (e.state.file.listed B).take room ++ q :: L2 := by
        rw [← hdrop, List.take_append_drop]
      obtain ⟨B1, B2, hB, hB1⟩ := ListedDir.split_listed hsplit
      have hq : q ∈ e.state.file.listed e.state.file.log := by
        rw [h.log, ListedDir.listed_append, hsplit]
        simp
      obtain ⟨name, hname⟩ := h.listed.mem_listed.mp hq
      have hentry : (e.state.file.dir.dentries q).name = name := (h.listed.dir.linked name q hname).1
      have hkey : ctx.pos = dirKey name := by
        rw [hpos, ListedDir.stopsAt, hdrop]
        exact congrArg dirKey hentry
      obtain ⟨-, hnend⟩ := hsafe name (by simp [hname])
      have hgoes : ¬ (ctx.pos = readdirEnd ∨ (0 < room ∧ ctx.emitted = [])) := by
        rintro (hend | ⟨hroom, hnil⟩)
        · exact hnend (hkey.symm.trans hend)
        · rw [hnil, List.map_nil, eq_comm, List.map_eq_nil_iff, List.take_eq_nil_iff] at hemitted
          rw [hsplit] at hemitted
          rcases hemitted with h0 | hnil
          · omega
          · simp at hnil
      refine ⟨A ++ B1, .dirLog q :: B2, h.listed, by rw [h.log, hB, List.append_assoc],
        fun _ => Or.inr ⟨q, name, B2, rfl, hname, hkey.symm⟩, fun hend => absurd hend hgoes, h.present,
        fun name p hp hname => ?_, fun hc => ?_, fun _ hend => absurd hend hgoes⟩
      · rcases h.ahead name p hp hname with hmem | hmem
        · exact Or.inl (List.mem_append_left _ hmem)
        · obtain ⟨hin, hpname⟩ := hlive hname hmem
          rw [hB] at hmem
          rcases List.mem_append.mp hmem with hmem | hmem
          · left
            show name ∈ e.emitted ++ ctx.emitted.map Dirent.name
            rw [hemitted, ← hB1]
            exact List.mem_append_right _ (List.mem_map.mpr
              ⟨p, ListedDir.mem_listed.mpr ⟨hmem, (ListedDir.mem_listed.mp hin).2⟩, hpname⟩)
          · exact Or.inr hmem
      · show e.emitted ++ ctx.emitted.map Dirent.name = e.state.file.listedNames (A ++ B1)
        rw [h.still hc, hemitted, ← hB1, ListedDir.listedNames, ListedDir.listedNames, ListedDir.listed_append,
          List.map_append]

theorem EnumInv.step (h : EnumInv env renv e A B) (hmedia : ∀ p, renv.verifies p = true)
    (hstep : Guarded (EnumAct.Safe env) (EnumStep env renv) e a e') : ∃ A' B', EnumInv env renv e' A' B' := by
  obtain ⟨hsafe, hstep⟩ := hstep
  cases hstep with
  | modify hmod =>
      obtain ⟨extra, h'⟩ := h.modify hsafe hmod
      exact ⟨_, _, h'⟩
  | read hmore hrun => exact h.read hmedia hsafe hmore hrun

/-- **A listing in several calls misses no name that is there all the time**, and puts it out
once when nothing changes, as long as the dentry it stands at is left alone. -/
theorem novaReaddirFast_resumes {s₀ : ListedState} (hmedia : ∀ p, renv.verifies p = true) (hstart : ListedStart s₀)
    (hbefore : Runs (Guarded (ListedAct.Completes env) (ListedStep env renv)) s₀ s)
    (hrun : Runs (Guarded (EnumAct.Safe env) (EnumStep env renv)) (Enumeration.start s) e) (hend : e.ended) :
    (∀ name, e.present name → name ∈ e.emitted) ∧
      (¬ e.changed → ∀ name, e.present name → e.emitted.count name = 1) := by
  have hkeep : ∀ e a e', (∃ A B, EnumInv env renv e A B) →
      Guarded (EnumAct.Safe env) (EnumStep env renv) e a e' → ∃ A B, EnumInv env renv e' A B := by
    rintro e a e' ⟨A, B, h⟩ hstep
    exact h.step hmedia hstep
  obtain ⟨A, B, h⟩ := hrun.invariant hkeep ⟨_, _, EnumInv.init (ListedInv.runs hstart hbefore)⟩
  refine ⟨h.done hend, fun hc name hp => ?_⟩
  have hnames : e.emitted = e.state.file.listedNames e.state.file.log := by
    rw [h.still hc, h.log, ListedDir.listedNames, ListedDir.listedNames, ListedDir.listed_append, h.rest hc hend,
      List.append_nil]
  refine List.count_eq_one_of_mem ?_ (h.done hend name hp)
  rw [hnames]
  exact (h.listed.nodup.filter _).map_on fun p hp q hq heq => h.listed.name_inj (fun _ => h.listed.mem_listed) p hp q hq heq

end Enum

end

/-! ### Three names -/

/-- A directory with the name `a`, then `b`, then `c`. -/
def listedA : ListedState := applyTx plainDirEnv 1 true emptyListed [addEntry [97] 40 4096 1]
def listedAb : ListedState := applyTx plainDirEnv 1 true listedA [addEntry [98] 41 4140 2]
def listedAbc : ListedState := applyTx plainDirEnv 1 true listedAb [addEntry [99] 42 4184 3]

theorem listedA_run : Runs (Guarded (ListedAct.Completes plainDirEnv) (ListedStep plainDirEnv plainReaddirEnv))
    emptyListed listedA :=
  Runs.single (addEntry_step (by decide) (by decide) rfl (by decide) (by decide))

theorem listedAbc_run : Runs (Guarded (ListedAct.Completes plainDirEnv) (ListedStep plainDirEnv plainReaddirEnv))
    emptyListed listedAbc := by
  have hb : Guarded (ListedAct.Completes plainDirEnv) (ListedStep plainDirEnv plainReaddirEnv) listedA
      (.tx [addEntry [98] 41 4140 2] 1 true) listedAb :=
    addEntry_step (by decide) (by decide) (by decide +kernel) (by decide +kernel) (by decide +kernel)
  have hc : Guarded (ListedAct.Completes plainDirEnv) (ListedStep plainDirEnv plainReaddirEnv) listedAb
      (.tx [addEntry [99] 42 4184 3] 1 true) listedAbc :=
    addEntry_step (by decide) (by decide) (by decide +kernel) (by decide +kernel) (by decide +kernel)
  exact (listedA_run.tail hb).tail hc

theorem novaReaddirFast_resumes_one : ∃ e : Enumeration, e.emitted = [[97]] ∧
    (∀ name, e.present name → name ∈ e.emitted) ∧
      (¬ e.changed → ∀ name, e.present name → e.emitted.count name = 1) := by
  have hread : novaReaddirFast plainDirEnv plainReaddirEnv listedA.file ⟨0, 1, []⟩ =
      (⟨readdirEnd, 0, [⟨[97], 40, 4⟩]⟩, .ok ()) := by decide +kernel
  have hsafe : (EnumAct.read 1).Safe plainDirEnv (Enumeration.start listedA) := by
    intro name hname
    have hone : name = [97] := by
      by_contra hne
      exact hname ((Function.update_of_ne hne _ _).trans rfl)
    rw [hone]
    decide
  refine ⟨_, rfl, novaReaddirFast_resumes (fun _ => rfl) emptyListed_start listedA_run
    (Runs.single ⟨hsafe, EnumStep.read (by exact id) hread⟩) (Or.inl rfl)⟩

/-- The name `b` is taken out while the listing stands at it: `c` is never listed. -/
def removeB : DirOp := .remove (dirCall [98] (.refused .enospc none)) false true ⟨0, 0, none, none⟩

theorem novaReaddirFast_loses :
    ¬∀ (env : BallocEnv) (renv : ReaddirEnv) (s₀ s : ListedState) (e : Enumeration), (∀ p, renv.verifies p = true) →
      ListedStart s₀ → Runs (Guarded (ListedAct.Completes env) (ListedStep env renv)) s₀ s →
      Runs (EnumStep env renv) (Enumeration.start s) e → e.ended →
      (∀ name, e.present name → name ∈ e.emitted) := by
  intro hall
  have hfirst : novaReaddirFast plainDirEnv plainReaddirEnv listedAbc.file ⟨0, 1, []⟩ =
      (⟨dirKey [98], 0, [⟨[97], 41, 4⟩]⟩, .ok ()) := by decide +kernel
  have hmod : ListedStep plainDirEnv plainReaddirEnv listedAbc (.tx [removeB] 1 true)
      (applyTx plainDirEnv 1 true listedAbc [removeB]) := by
    have hb : listedAbc.names [98] ≠ none := by decide +kernel
    exact ListedStep.tx ⟨⟨⟨by decide, by decide, ⟨nofun, trivial⟩, hb⟩, nofun, nofun⟩, fun _ _ _ => trivial⟩
  have hsecond : novaReaddirFast plainDirEnv plainReaddirEnv
      (applyTx plainDirEnv 1 true listedAbc [removeB]).file ⟨dirKey [98], 1, []⟩ =
      (⟨dirKey [98], 1, []⟩, .ok ()) := by decide +kernel
  have hmore : ¬ (dirKey [98] = readdirEnd ∨ (0 < 1 ∧ [(⟨[97], 41, 4⟩ : Dirent)] = [])) := by decide
  have hrun := ((Runs.single (EnumStep.read (e := Enumeration.start listedAbc) (by exact id) hfirst)).tail
    (EnumStep.modify hmod)).tail (EnumStep.read hmore hsecond)
  have hthere : listedAbc.names [99] ≠ none := by decide +kernel
  have hstill : (applyTx plainDirEnv 1 true listedAbc [removeB]).names [99] ≠ none := by decide +kernel
  have hmissing := hall plainDirEnv plainReaddirEnv emptyListed listedAbc _ (fun _ => rfl) emptyListed_start
    listedAbc_run hrun (Or.inr ⟨by decide, rfl⟩) [99] ⟨hthere, hstill⟩
  revert hmissing
  decide

end Parfs
