/-
What the listings of a directory hold.

The dentries in the log that are not marked are those the tree leads to, one for each name
that is present: what a name is added and removed by keeps that, if it runs to its end.  So
the walk over the tree lists the names with their inodes.  The walk over the log lists the
same names with the types of their inodes, but each of them under the inode number of the next
dentry, and only the last under its own.
-/
import Parfs.Lib.Late
import Parfs.Readdir
import Parfs.Proofs.Dir

namespace Parfs

open Lib

/-! ### The walk over the log -/

/-- The address of a dentry of the log. -/
def DirLogEntry.dentry : DirLogEntry → Option Nat
  | .setAttr => none
  | .linkChange => none
  | .dirLog p => some p

section Loop

variable {env : BallocEnv} {renv : ReaddirEnv} {f : ListedDir} {es : List DirLogEntry} {p q : Nat}

/-- The dentries that are listed. -/
def ListedDir.listed (f : ListedDir) (es : List DirLogEntry) : List Nat :=
  (es.filterMap DirLogEntry.dentry).filter f.lists

@[simp] theorem ListedDir.listed_nil : f.listed [] = [] := rfl

@[simp] theorem ListedDir.listed_setAttr : f.listed (.setAttr :: es) = f.listed es := rfl

@[simp] theorem ListedDir.listed_linkChange : f.listed (.linkChange :: es) = f.listed es := rfl

theorem ListedDir.listed_dirLog : f.listed (.dirLog p :: es) = if f.lists p then p :: f.listed es else f.listed es := by
  unfold ListedDir.listed
  rw [List.filterMap_cons_some (show DirLogEntry.dentry (.dirLog p) = some p from rfl), List.filter_cons]

theorem ListedDir.mem_listed : p ∈ f.listed es ↔ .dirLog p ∈ es ∧ f.lists p = true := by
  unfold ListedDir.listed
  rw [List.mem_filter, List.mem_filterMap]
  refine and_congr_left fun _ => ⟨?_, fun h => ⟨_, h, rfl⟩⟩
  rintro ⟨e, he, hp⟩
  cases e with
  | setAttr => cases hp
  | linkChange => cases hp
  | dirLog q =>
      obtain rfl : q = p := by simpa [DirLogEntry.dentry] using hp
      exact he

/-- `i_mode` of an inode that is there. -/
def ReaddirEnv.mode (renv : ReaddirEnv) (ino : Nat) : Nat :=
  match renv.childMode ino with
  | .ok mode => mode
  | .error _ => 0

/-- The name and the type of a dentry, under the inode number of another one. -/
def ListedDir.dirent (f : ListedDir) (renv : ReaddirEnv) (p q : Nat) : Dirent :=
  ⟨(f.dir.dentries p).name, (f.dir.dentries q).ino, if2dt (renv.mode (f.dir.dentries p).ino)⟩

/-- The position that leads back to a dentry. -/
def ListedDir.key (f : ListedDir) (p : Nat) : Nat := dirKey (f.dir.dentries p).name

/-- Where a listing of these dentries stops for want of room. -/
def ListedDir.stopsAt (f : ListedDir) (ps : List Nat) (room : Nat) : Nat :=
  match ps.drop room with
  | [] => readdirEnd
  | p :: _ => f.key p

/-- The loop while it holds a dentry back. -/
def ListedDir.holding (f : ListedDir) (renv : ReaddirEnv) (p room : Nat) (out : List Dirent) : ReaddirFast :=
  ⟨⟨f.key p, room, out⟩, f.key p, (f.dir.dentries p).ino,
    some ((f.dir.dentries p).name, renv.mode (f.dir.dentries p).ino)⟩

/-- Every dentry verifies, and the inodes that are listed are there. -/
structure Readable (renv : ReaddirEnv) (f : ListedDir) (es : List DirLogEntry) : Prop where
  verifies : ∀ p, renv.verifies p = true
  inode : ∀ p ∈ f.listed es, renv.childMode (f.dir.dentries p).ino = .ok (renv.mode (f.dir.dentries p).ino)

theorem Readable.tail {e : DirLogEntry} (h : Readable renv f (e :: es)) : Readable renv f es := by
  refine ⟨h.verifies, fun p hp => h.inode p ?_⟩
  rw [ListedDir.mem_listed] at hp ⊢
  exact ⟨List.mem_cons_of_mem _ hp.1, hp.2⟩

/-- A dentry that is listed puts out the one that is held back. -/
theorem novaReaddirFastLoop_listed (h : Readable renv f (.dirLog p :: es)) (hp : f.lists p = true) (s : ReaddirFast) :
    novaReaddirFastLoop renv f (.dirLog p :: es) s =
      match s.emitPrev (f.dir.dentries p).ino with
      | none => (s.ctx, .ok ())
      | some ctx => novaReaddirFastLoop renv f es (f.holding renv p ctx.room ctx.emitted) := by
  have hmem : p ∈ f.listed (.dirLog p :: es) := ListedDir.mem_listed.mpr ⟨List.mem_cons_self, hp⟩
  rw [novaReaddirFastLoop]
  simp only [h.verifies, hp, h.inode p hmem, Bool.not_true, Bool.false_eq_true, if_false, if_true]
  rfl

theorem novaReaddirFastLoop_skipped (h : Readable renv f (.dirLog p :: es)) (hp : f.lists p = false) (s : ReaddirFast) :
    novaReaddirFastLoop renv f (.dirLog p :: es) s =
      novaReaddirFastLoop renv f es { s with ctx := { s.ctx with pos := s.pos } } := by
  rw [novaReaddirFastLoop]
  simp only [h.verifies, hp, Bool.not_true, Bool.false_eq_true, if_false]

/-- What the loop makes of the dentry it holds back and those that follow. -/
theorem novaReaddirFastLoop_holding (es : List DirLogEntry) : ∀ (p room : Nat) (out : List Dirent),
    Readable renv f es → novaReaddirFastLoop renv f es (f.holding renv p room out) =
      (⟨f.stopsAt (p :: f.listed es) room, room - (f.listed es).length - 1,
        out ++ (late (f.dirent renv) (p :: f.listed es)).take room⟩, .ok ()) := by
  induction es with
  | nil =>
      intro p room out _
      cases room with
      | zero => simp [novaReaddirFastLoop, ReaddirFast.emitPrev, ListedDir.holding, dirEmit, ListedDir.stopsAt]
      | succ room =>
          simp [novaReaddirFastLoop, ReaddirFast.emitPrev, ListedDir.holding, dirEmit, ListedDir.stopsAt, late,
            ListedDir.dirent]
  | cons e es ih =>
      intro p room out h
      cases e with
      | setAttr => exact ih p room out h.tail
      | linkChange => exact ih p room out h.tail
      | dirLog q =>
          by_cases hq : f.lists q = true
          · rw [novaReaddirFastLoop_listed h hq, ListedDir.listed_dirLog, if_pos hq]
            cases room with
            | zero => simp [ReaddirFast.emitPrev, ListedDir.holding, dirEmit, ListedDir.stopsAt]
            | succ room =>
                have hput : (f.holding renv p (room + 1) out).emitPrev (f.dir.dentries q).ino =
                    some ⟨f.key p, room, out ++ [f.dirent renv p q]⟩ := by
                  simp [ReaddirFast.emitPrev, ListedDir.holding, dirEmit, ListedDir.dirent]
                rw [hput]
                dsimp only
                rw [ih q room _ h.tail, late, List.take_succ_cons, List.append_assoc, List.singleton_append,
                  List.length_cons, Nat.add_sub_add_right]
                rfl
          · rw [Bool.not_eq_true] at hq
            rw [novaReaddirFastLoop_skipped h hq, ListedDir.listed_dirLog, if_neg (by simp [hq])]
            exact ih p room out h.tail

/-- **What the walk over the log puts out**, and where it stops. -/
theorem novaReaddirFastLoop_spec (es : List DirLogEntry) : ∀ (pos room ino : Nat) (out : List Dirent),
    Readable renv f es → novaReaddirFastLoop renv f es ⟨⟨pos, room, out⟩, pos, ino, none⟩ =
      (⟨f.stopsAt (f.listed es) room, room - (f.listed es).length,
        out ++ (late (f.dirent renv) (f.listed es)).take room⟩, .ok ()) := by
  induction es with
  | nil =>
      intro pos room ino out _
      simp [novaReaddirFastLoop, ReaddirFast.emitPrev, ListedDir.stopsAt, late]
  | cons e es ih =>
      intro pos room ino out h
      cases e with
      | setAttr => exact ih pos room ino out h.tail
      | linkChange => exact ih pos room ino out h.tail
      | dirLog q =>
          by_cases hq : f.lists q = true
          · rw [novaReaddirFastLoop_listed h hq, ListedDir.listed_dirLog, if_pos hq]
            simp only [ReaddirFast.emitPrev]
            rw [novaReaddirFastLoop_holding es q room out h.tail, List.length_cons, Nat.sub_sub]
          · rw [Bool.not_eq_true] at hq
            rw [novaReaddirFastLoop_skipped h hq, ListedDir.listed_dirLog, if_neg (by simp [hq])]
            exact ih pos room ino out h.tail

/-- The walk over the tree. -/
theorem novaReaddirSlowLoop_spec (hmedia : ∀ p, renv.verifies p = true) (nodes : List RangeNode) :
    ∀ (ctx : DirContext), nodes.length ≤ ctx.room →
      (∀ n ∈ nodes, (f.dir.dentries n.direntry).ino ≠ 0 ∧
        renv.childMode (f.dir.dentries n.direntry).ino = .ok (renv.mode (f.dir.dentries n.direntry).ino)) →
      novaReaddirSlowLoop renv f nodes ctx = some (⟨readdirEnd, ctx.room - nodes.length,
        ctx.emitted ++ nodes.map fun n => f.dirent renv n.direntry n.direntry⟩, .ok ()) := by
  induction nodes with
  | nil =>
      intro ctx _ _
      simp [novaReaddirSlowLoop]
  | cons n nodes ih =>
      intro ctx hroom hok
      obtain ⟨hino, hmode⟩ := hok n List.mem_cons_self
      rw [List.length_cons] at hroom
      rw [novaReaddirSlowLoop]
      simp only [hmedia, Bool.not_true, Bool.false_eq_true, if_false, hino, hmode, dirEmit]
      rw [if_neg (by omega)]
      dsimp only
      rw [ih _ (show nodes.length ≤ ctx.room - 1 by omega) fun m hm => hok m (List.mem_cons_of_mem _ hm)]
      simp only [List.length_cons, List.map_cons, List.append_assoc, List.singleton_append, Nat.sub_sub,
        Nat.add_comm 1]
      rfl

end Loop

/-! ### Transactions on a directory -/

/-- A directory, and the names a caller added to it and has not removed. -/
structure ListedState where
  file : ListedDir
  /-- the dentry last added under the name -/
  names : List UInt8 → Option Nat
  /-- the inode it was added for -/
  inodes : List UInt8 → Option Nat

/-- The directory and its names, without the log. -/
def ListedState.base (s : ListedState) : DirState := ⟨s.file.dir, s.names⟩

namespace DirOp

/-- The dentry a call has appended. -/
def appended (u : NovaInodeUpdate) : DirOp → Option Nat
  | add _ _ _ _ => some u.currEntry
  | remove _ _ _ _ => u.deleteDentry

/-- The inode a name has from then on. -/
def inode : DirOp → Option Nat
  | add _ ino _ _ => some ino
  | remove _ _ _ _ => none

/-- What `nova_invalidate_dentries` is going to be called with. -/
def marks (u : NovaInodeUpdate) : DirOp → List NovaInodeUpdate
  | add _ _ _ _ => []
  | remove _ _ _ _ => [u]

/-- The directory once the call succeeded; its dentry is in the log, and none of its flags is set. -/
def logged (s : ListedState) (d : NovaDir) (u : NovaInodeUpdate) (op : DirOp) : ListedState where
  file := { s.file with
    dir := d
    log := s.file.log ++ (op.appended u).toList.map .dirLog
    reassigned := fun p => if op.appended u = some p then false else s.file.reassigned p }
  names := Function.update s.names op.call.name (op.binding u)
  inodes := Function.update s.inodes op.call.name op.inode

end DirOp

/-- The calls of one transaction, and what is to be marked after it. -/
def runOps (env : BallocEnv) : ListedState → List NovaInodeUpdate → List DirOp →
    ListedState × Except Errno (List NovaInodeUpdate)
  | s, us, [] => (s, .ok us)
  | s, us, op :: ops =>
    match op.run env s.file.dir with
    | (d, .error e) => ({ s with file := { s.file with dir := d } }, .error e)
    | (d, .ok u) => runOps env (op.logged s d u) (us ++ op.marks u) ops

/-- Each call is one the callers make, for an inode that is there, and appends behind the log. -/
def OpsEnabled (env : BallocEnv) (renv : ReaddirEnv) : ListedState → List DirOp → Prop
  | _, [] => True
  | s, op :: ops =>
    (op.Enabled s.base ∧ (∀ p, op.call.append.written = some p → .dirLog p ∉ s.file.log) ∧
      ∀ ino, op.inode = some ino → renv.childMode ino = .ok (renv.mode ino)) ∧
    ∀ d u, op.run env s.file.dir = (d, .ok u) → OpsEnabled env renv (op.logged s d u) ops

/-- A transaction, as `nova_create`, `nova_unlink`, `nova_rename` and the others make it: the
calls, the move of the tail, and the marks.  When a call fails the tail stays. -/
def applyTx (env : BallocEnv) (sEpochId : Nat) (verifies : Bool) (s : ListedState) (ops : List DirOp) : ListedState :=
  match runOps env s [] ops with
  | (t, .error _) => { s with file := { s.file with dir := t.file.dir } }
  | (t, .ok us) => { t with file := us.foldl (novaInvalidateDentries sEpochId verifies) t.file }

inductive ListedAct where
  | tx (ops : List DirOp) (sEpochId : Nat) (verifies : Bool)
  /-- what is appended besides dentries -/
  | setAttr
  | linkChange
  /-- the directory itself is moved: its `..` entry, in place -/
  | changeParent (ino : Nat)

/-- The name `..` -/
def dotdot : List UInt8 := [46, 46]

/-- The steps of a directory. -/
inductive ListedStep (env : BallocEnv) (renv : ReaddirEnv) : ListedState → ListedAct → ListedState → Prop
  | tx {s : ListedState} {ops : List DirOp} {sEpochId : Nat} {verifies : Bool} (h : OpsEnabled env renv s ops) :
      ListedStep env renv s (.tx ops sEpochId verifies) (applyTx env sEpochId verifies s ops)
  | setAttr {s : ListedState} :
      ListedStep env renv s .setAttr { s with file := { s.file with log := s.file.log ++ [.setAttr] } }
  | linkChange {s : ListedState} :
      ListedStep env renv s .linkChange { s with file := { s.file with log := s.file.log ++ [.linkChange] } }
  | changeParent {s : ListedState} {p ino : Nat} (hp : s.names dotdot = some p) (hino : ino ≠ 0)
      (hmode : renv.childMode ino = .ok (renv.mode ino)) :
      ListedStep env renv s (.changeParent ino)
        { s with
          file := { s.file with dir := s.file.dir.setDentry p { s.file.dir.dentries p with ino := ino } }
          inodes := Function.update s.inodes dotdot (some ino) }

/-- A transaction runs to its end, or is a single addition. -/
def ListedAct.Completes (env : BallocEnv) (s : ListedState) : ListedAct → Prop
  | .tx ops _ _ => (∃ t us, runOps env s [] ops = (t, .ok us)) ∨ ∃ c ino slab update, ops = [.add c ino slab update]
  | .setAttr => True
  | .linkChange => True
  | .changeParent _ => True

/-- A directory that holds no name and has a log. -/
structure ListedStart (s : ListedState) : Prop where
  dir : DirStart s.base
  log : s.file.log = []
  logHead : s.file.logHead ≠ 0
  inodes : ∀ name, s.inodes name = none

/-! ### The log and the tree -/

/-- The dentry is flagged, or about to be. -/
def Off (f : ListedDir) (us : List NovaInodeUpdate) (p : Nat) : Prop :=
  f.reassigned p = true ∨ ∃ u ∈ us, u.createDentry = some p

/-- What the calls keep, with what is to be marked at the end of the transaction. -/
structure ListedInv (env : BallocEnv) (renv : ReaddirEnv) (s : ListedState) (us : List NovaInodeUpdate) :
    Prop where
  dir : DirInv env s.base
  nodup : (s.file.log.filterMap DirLogEntry.dentry).Nodup
  named : ∀ name p, s.names name = some p → .dirLog p ∈ s.file.log ∧ ¬ Off s.file us p ∧
    s.inodes name = some (s.file.dir.dentries p).ino
  absent : ∀ name, s.names name = none → s.inodes name = none
  inode : ∀ name ino, s.inodes name = some ino → renv.childMode ino = .ok (renv.mode ino)
  live : ∀ p, .dirLog p ∈ s.file.log → (s.file.dir.dentries p).ino ≠ 0 →
    (s.file.dir.dentries p).invalid = false → ¬ Off s.file us p →
    s.names (s.file.dir.dentries p).name = some p
  marked : ∀ u ∈ us, u.deleteDentry = none → u.createDentry = none
  deleted : ∀ u ∈ us, ∀ p, u.deleteDentry = some p → .dirLog p ∈ s.file.log ∧ (s.file.dir.dentries p).ino = 0
  created : ∀ u ∈ us, ∀ p, u.createDentry = some p → .dirLog p ∈ s.file.log
  logHead : s.file.logHead ≠ 0

section Inv

variable {env : BallocEnv} {renv : ReaddirEnv} {s t : ListedState} {us : List NovaInodeUpdate} {op : DirOp}

theorem ListedStart.inv (h : ListedStart s) : ListedInv env renv s [] := by
  have hlog : ∀ p, .dirLog p ∉ s.file.log := by simp [h.log]
  have hnone : ∀ name, s.names name = none := h.dir.unnamed
  refine ⟨h.dir.inv, by simp [h.log], fun name p hp => ?_, fun name _ => h.inodes name, fun name ino hi => ?_,
    fun p hp => absurd hp (hlog p), nofun, nofun, nofun, h.logHead⟩
  · rw [hnone] at hp
    cases hp
  · rw [h.inodes] at hi
    cases hi

/-- How a removal that succeeded is recorded. -/
theorem novaRemoveDentry_update {d d' : NovaDir} {c : DentryCall} {rename verifies : Bool}
    {update u : NovaInodeUpdate} {p : Nat} (h : DirNodesOk env d.nodes) (hname : 0 < c.name.length)
    (hp : dirTable d.nodes (dirKey c.name) = some p)
    (hrun : novaRemoveDentry env d c rename verifies update = (d', .ok u)) :
    (u.createDentry = none ∧ u.deleteDentry = none ∧ (d'.dentries p).ino = 0 ∧
        ∀ q, q ≠ p → d'.dentries q = d.dentries q) ∨
      ∃ w, u.createDentry = some p ∧ u.deleteDentry = some w ∧ c.append.written = some w ∧
        (d'.dentries w).ino = 0 ∧ ∀ q, q ≠ w → d'.dentries q = d.dentries q := by
  obtain ⟨tree, hfst, -, -, hsnd⟩ := novaRemoveDirTree_spec c.name h hp verifies
  have hfail : (¬∃ q, (novaRemoveDirTree env d c.name verifies).2 = .ok q) ∨
      (novaRemoveDirTree env d c.name verifies).2 = .ok p := by
    rw [hsnd]
    by_cases hok : verifies = true ∧ (d.dentries p).ino ≠ 0 ∧ (d.dentries p).invalid = false ∧
        novaCheckDentryMatch (d.dentries p) c.name = false
    · exact Or.inr (if_pos hok)
    · rw [if_neg hok]
      exact Or.inl (by simp)
  unfold novaRemoveDentry at hrun
  dsimp only at hrun
  rw [if_neg (by omega)] at hrun
  rcases htree : novaRemoveDirTree env d c.name verifies with ⟨d₁, e | q⟩
  · rw [htree] at hrun
    cases hrun
  · rw [htree] at hfst hfail hrun
    obtain rfl : q = p := by simpa using hfail
    obtain rfl : d₁ = { d with rbTree := tree } := hfst
    dsimp only at hrun
    by_cases hplace : (!rename) = true ∧ (d.dentries q).epochId = c.epochId
    · rw [if_pos hplace] at hrun
      left
      obtain ⟨rfl, hu⟩ := Prod.mk.inj hrun
      have hu := Except.ok.inj hu
      refine ⟨?_, ?_, ?_, fun r hr => if_neg hr⟩
      · rw [← hu]
        split <;> rfl
      · rw [← hu]
        split <;> rfl
      · exact congrArg (fun e : LogDentry => e.ino) (if_pos rfl)
    · rw [if_neg hplace] at hrun
      unfold novaAppendDentry at hrun
      rcases happend : c.append with ⟨e, _ | w⟩ | w
      · rw [happend] at hrun
        cases hrun
      · rw [happend] at hrun
        cases hrun
      · rw [happend] at hrun
        right
        obtain ⟨rfl, hu⟩ := Prod.mk.inj hrun
        have hu := Except.ok.inj hu
        refine ⟨w, ?_, ?_, rfl, ?_, fun r hr => if_neg hr⟩
        · rw [← hu]
        · rw [← hu]
        · exact congrArg (fun e : LogDentry => e.ino) (if_pos rfl)

section Logged

variable {d : NovaDir} {u : NovaInodeUpdate}

theorem logged_base (hrun : op.run env s.file.dir = (d, .ok u)) : (op.logged s d u).base = op.apply env s.base := by
  unfold ListedState.base DirOp.apply DirOp.logged
  dsimp only
  rw [hrun]

theorem mem_logged {e : DirLogEntry} :
    e ∈ (op.logged s d u).file.log ↔ e ∈ s.file.log ∨ ∃ w, op.appended u = some w ∧ e = .dirLog w := by
  show e ∈ s.file.log ++ (op.appended u).toList.map DirLogEntry.dirLog ↔ _
  rw [List.mem_append, List.mem_map]
  simp only [Option.mem_toList, eq_comm]

/-- A dentry that was in the log is flagged just if it was, or is the one that goes. -/
theorem off_logged {p : Nat} (hp : op.appended u ≠ some p) :
    Off (op.logged s d u).file (us ++ op.marks u) p ↔
      Off s.file us p ∨ ∃ v ∈ op.marks u, v.createDentry = some p := by
  have hflag : (op.logged s d u).file.reassigned p = s.file.reassigned p := if_neg hp
  unfold Off
  rw [hflag, or_assoc]
  simp only [List.mem_append, or_and_right, exists_or]

/-- What a call that succeeded did to the dentries. -/
structure CallEffect (s : ListedState) (d : NovaDir) (u : NovaInodeUpdate) (op : DirOp) : Prop where
  new : ∀ w, op.appended u = some w → .dirLog w ∉ s.file.log
  others : ∀ q, .dirLog q ∈ s.file.log → s.names op.call.name ≠ some q → d.dentries q = s.file.dir.dentries q
  bound : ∀ p, op.binding u = some p → op.appended u = some p ∧ (d.dentries p).name = op.call.name ∧
    op.inode = some (d.dentries p).ino
  unbound : op.binding u = none → op.inode = none
  /-- a dentry appended for a removal -/
  delete : ∀ w, op.appended u = some w → op.binding u = some w ∨ (d.dentries w).ino = 0
  gone : ∀ p, s.names op.call.name = some p → (d.dentries p).ino = 0 ∨ ∃ v ∈ op.marks u, v.createDentry = some p
  marks : ∀ v ∈ op.marks u, (v.deleteDentry = none → v.createDentry = none) ∧
    (∀ p, v.createDentry = some p → s.names op.call.name = some p) ∧
    ∀ p, v.deleteDentry = some p → op.appended u = some p ∧ (d.dentries p).ino = 0

theorem ListedInv.callEffect (h : ListedInv env renv s us) (hen : op.Enabled s.base)
    (hnew : ∀ p, op.call.append.written = some p → DirLogEntry.dirLog p ∉ s.file.log)
    (hrun : op.run env s.file.dir = (d, .ok u)) : CallEffect s d u op := by
  obtain ⟨hpos, -, hfresh, hop⟩ := hen
  have hd : (op.run env s.file.dir).1 = d := congrArg Prod.fst hrun
  have hu : (op.run env s.file.dir).2 = .ok u := congrArg Prod.snd hrun
  cases op with
  | add c ino slab update =>
      obtain ⟨hother, ⟨e, herr, -⟩ | ⟨v, hok, hw, -, -, -, hentry⟩⟩ :=
        novaAddDentry_spec h.dir.nodes c ino update hpos hfresh.2
      · exact absurd (hu.symm.trans herr) (by simp)
      obtain rfl : v = u := Except.ok.inj (hok.symm.trans hu)
      replace hentry : d.dentries v.currEntry = novaUpdateNewDentry s.file.dir c ino := hd ▸ hentry
      refine ⟨?_, fun q hq _ => ?_, ?_, fun hnone => absurd hnone (by simp [DirOp.binding]), fun w hw' => Or.inl hw',
        fun p hp => ?_, by simp [DirOp.marks]⟩
      · intro w hw'
        exact hnew w (hw.trans hw')
      · have hne : c.append.written ≠ some q := fun heq => hnew q heq hq
        rw [← hd]
        exact hother q hne
      · intro p hp
        obtain rfl : v.currEntry = p := by simpa [DirOp.binding] using hp
        rw [hentry]
        exact ⟨rfl, rfl, rfl⟩
      · exact absurd (hop.1.symm.trans hp) (by simp)
  | remove c rename verifies update =>
      obtain ⟨p, hp⟩ := Option.ne_none_iff_exists'.mp hop
      replace hp : s.names c.name = some p := hp
      have hunique : ∀ q, s.names c.name = some q → q = p := fun q hq => Option.some.inj (hq.symm.trans hp)
      rcases novaRemoveDentry_update h.dir.nodes hpos (h.dir.keyed.stored c.name p hp) hrun with
        ⟨hcreate, hdelete, hino, hother⟩ | ⟨w, hcreate, hdelete, hw, hino, hother⟩
      · refine ⟨?_, fun q _ hq => hother q ?_, fun _ hsome => absurd hsome (by simp [DirOp.binding]), fun _ => rfl, ?_,
          fun q hq => Or.inl ?_, ?_⟩
        · simp [DirOp.appended, hdelete]
        · rintro rfl
          exact hq hp
        · simp [DirOp.appended, hdelete]
        · rw [hunique q hq]
          exact hino
        · simp [DirOp.marks, hcreate, hdelete]
      · refine ⟨?_, fun q hq _ => hother q ?_, fun _ hsome => absurd hsome (by simp [DirOp.binding]), fun _ => rfl, ?_,
          fun q hq => Or.inr ⟨u, ?_, ?_⟩, ?_⟩
        · intro w' hw'
          obtain rfl : w = w' := by simpa [DirOp.appended, hdelete] using hw'
          exact hnew w hw
        · rintro rfl
          exact hnew q hw hq
        · intro w' hw'
          obtain rfl : w = w' := by simpa [DirOp.appended, hdelete] using hw'
          exact Or.inr hino
        · simp [DirOp.marks]
        · rw [hunique q hq]
          exact hcreate
        · intro v hv
          obtain rfl : v = u := by simpa [DirOp.marks] using hv
          refine ⟨by simp [hdelete], fun q hq => ?_, fun q hq => ?_⟩
          · obtain rfl : p = q := by simpa [hcreate] using hq
            exact hp
          · obtain rfl : w = q := by simpa [hdelete] using hq
            exact ⟨hdelete, hino⟩

/-- The log holds no dentry twice. -/
theorem logged_nodup (hlog : (s.file.log.filterMap DirLogEntry.dentry).Nodup)
    (hnew : ∀ p, op.appended u = some p → DirLogEntry.dirLog p ∉ s.file.log) :
    ((op.logged s d u).file.log.filterMap DirLogEntry.dentry).Nodup := by
  show ((s.file.log ++ (op.appended u).toList.map DirLogEntry.dirLog).filterMap DirLogEntry.dentry).Nodup
  rw [List.filterMap_append]
  cases hw : op.appended u with
  | none => simpa using hlog
  | some w =>
      refine List.nodup_append.mpr ⟨hlog, List.nodup_singleton w, ?_⟩
      rintro p hp q hq rfl
      obtain rfl : p = w := by simpa [DirLogEntry.dentry] using hq
      obtain ⟨e, he, hep⟩ := List.mem_filterMap.mp hp
      cases e with
      | setAttr => cases hep
      | linkChange => cases hep
      | dirLog q =>
          obtain rfl : q = p := by simpa [DirLogEntry.dentry] using hep
          exact hnew q hw he

/-- **A call that succeeds keeps the invariant.** -/
theorem ListedInv.logged (h : ListedInv env renv s us) (hen : op.Enabled s.base)
    (hnew : ∀ p, op.call.append.written = some p → DirLogEntry.dirLog p ∉ s.file.log)
    (hmode : ∀ ino, op.inode = some ino → renv.childMode ino = .ok (renv.mode ino))
    (hrun : op.run env s.file.dir = (d, .ok u)) : ListedInv env renv (op.logged s d u) (us ++ op.marks u) := by
  have heff := h.callEffect hen hnew hrun
  have hdir : DirInv env (op.logged s d u).base := by
    rw [logged_base hrun]
    refine h.dir.step hen ?_
    cases op with
    | add c ino slab update => trivial
    | remove c rename verifies update =>
        obtain ⟨p, hp⟩ := Option.ne_none_iff_exists'.mp hen.2.2.2
        obtain ⟨hname, hino, hvalid⟩ := h.dir.linked c.name p hp
        obtain ⟨-, -, -, hok⟩ := novaRemoveDentry_spec h.dir.nodes c rename verifies update hen.1
          (h.dir.keyed.stored c.name p hp) hname hino hvalid
        exact ⟨p, hp, hok.mp ⟨u, congrArg Prod.snd hrun⟩⟩
  have hnames : (op.logged s d u).names = Function.update s.names op.call.name (op.binding u) := rfl
  have hinodes : (op.logged s d u).inodes = Function.update s.inodes op.call.name op.inode := rfl
  have hdentries : (op.logged s d u).file.dir.dentries = d.dentries := rfl
  have hold : ∀ {q}, .dirLog q ∈ s.file.log → op.appended u ≠ some q := fun hq hw => heff.new _ hw hq
  refine ⟨hdir, logged_nodup h.nodup heff.new, ?_, ?_, ?_, ?_, ?_, ?_, ?_, h.logHead⟩
  · intro name p hp
    rw [hnames] at hp
    rw [hinodes, hdentries]
    by_cases hname : name = op.call.name
    · rw [hname, Function.update_self] at hp ⊢
      obtain ⟨hw, -, hino⟩ := heff.bound p hp
      refine ⟨mem_logged.mpr (Or.inr ⟨p, hw, rfl⟩), ?_, hino⟩
      rintro (hflag | ⟨v, hv, hcreate⟩)
      · have hfalse : (op.logged s d u).file.reassigned p = false := if_pos hw
        exact absurd (hfalse.symm.trans hflag) (by simp)
      · rcases List.mem_append.mp hv with hv | hv
        · exact heff.new p hw (h.created v hv p hcreate)
        · exact heff.new p hw (h.named _ p ((heff.marks v hv).2.1 p hcreate)).1
    · rw [Function.update_of_ne hname] at hp ⊢
      obtain ⟨hmem, hon, hinode⟩ := h.named name p hp
      have hother : s.names op.call.name ≠ some p := fun heq => h.dir.apart hp heq hname rfl
      refine ⟨mem_logged.mpr (Or.inl hmem), ?_, by rw [heff.others p hmem hother]; exact hinode⟩
      rw [off_logged (hold hmem)]
      rintro (hoff | ⟨v, hv, hcreate⟩)
      · exact hon hoff
      · exact hother ((heff.marks v hv).2.1 p hcreate)
  · intro name hnone
    rw [hnames] at hnone
    rw [hinodes]
    by_cases hname : name = op.call.name
    · rw [hname, Function.update_self] at hnone ⊢
      exact heff.unbound hnone
    · rw [Function.update_of_ne hname] at hnone ⊢
      exact h.absent name hnone
  · intro name ino hi
    rw [hinodes] at hi
    by_cases hname : name = op.call.name
    · rw [hname, Function.update_self] at hi
      exact hmode ino hi
    · rw [Function.update_of_ne hname] at hi
      exact h.inode name ino hi
  · intro p hp hino hvalid hon
    rw [hdentries] at hino hvalid ⊢
    rw [hnames]
    rcases mem_logged.mp hp with hp | ⟨w, hw, heq⟩
    · rw [off_logged (hold hp)] at hon
      have hother : s.names op.call.name ≠ some p := by
        intro heq
        exact (heff.gone p heq).elim (fun h0 => hino h0) fun hv => hon (Or.inr hv)
      rw [heff.others p hp hother] at hino hvalid ⊢
      have hlive := h.live p hp hino hvalid fun hoff => hon (Or.inl hoff)
      have hname : (s.file.dir.dentries p).name ≠ op.call.name := by
        intro heq
        rw [heq] at hlive
        exact hother hlive
      rw [Function.update_of_ne hname]
      exact hlive
    · obtain rfl : p = w := by simpa using heq
      rcases heff.delete p hw with hbind | h0
      · obtain ⟨-, hname, -⟩ := heff.bound p hbind
        rw [hname, Function.update_self]
        exact hbind
      · exact absurd h0 hino
  · intro v hv
    rcases List.mem_append.mp hv with hv | hv
    · exact h.marked v hv
    · exact (heff.marks v hv).1
  · intro v hv p hp
    rw [hdentries]
    rcases List.mem_append.mp hv with hv | hv
    · obtain ⟨hmem, hino⟩ := h.deleted v hv p hp
      refine ⟨mem_logged.mpr (Or.inl hmem), ?_⟩
      rwa [heff.others p hmem fun heq => (h.dir.linked _ p heq).2.1 hino]
    · obtain ⟨hw, hino⟩ := (heff.marks v hv).2.2 p hp
      exact ⟨mem_logged.mpr (Or.inr ⟨p, hw, rfl⟩), hino⟩
  · intro v hv p hp
    rcases List.mem_append.mp hv with hv | hv
    · exact mem_logged.mpr (Or.inl (h.created v hv p hp))
    · exact mem_logged.mpr (Or.inl (h.named _ p ((heff.marks v hv).2.1 p hp)).1)

end Logged

/-- What marking does to a directory. -/
structure Invalidated (f f' : ListedDir) (u : NovaInodeUpdate) : Prop where
  log : f'.log = f.log
  logHead : f'.logHead = f.logHead
  rbTree : f'.dir.rbTree = f.dir.rbTree
  kept : ∀ q, (f'.dir.dentries q).ino = (f.dir.dentries q).ino ∧ (f'.dir.dentries q).name = (f.dir.dentries q).name
  valid : ∀ q, (f'.dir.dentries q).invalid = false → (f.dir.dentries q).invalid = false
  others : ∀ q, u.createDentry ≠ some q → u.deleteDentry ≠ some q → f'.dir.dentries q = f.dir.dentries q
  reassigned : ∀ q, f'.reassigned q = true ↔
    f.reassigned q = true ∨ (u.createDentry = some q ∧ u.deleteDentry ≠ none)

theorem novaInvalidateLogentry_spec (f : ListedDir) (p q : Nat) :
    ((novaInvalidateLogentry f p).dir.dentries q).ino = (f.dir.dentries q).ino ∧
      ((novaInvalidateLogentry f p).dir.dentries q).name = (f.dir.dentries q).name ∧
      (((novaInvalidateLogentry f p).dir.dentries q).invalid = false → (f.dir.dentries q).invalid = false) ∧
      (q ≠ p → (novaInvalidateLogentry f p).dir.dentries q = f.dir.dentries q) := by
  by_cases hq : q = p
  · have hset : (novaInvalidateLogentry f p).dir.dentries q = { f.dir.dentries p with invalid := true } := if_pos hq
    rw [hset, hq]
    exact ⟨rfl, rfl, nofun, fun hne => absurd rfl hne⟩
  · have hset : (novaInvalidateLogentry f p).dir.dentries q = f.dir.dentries q := if_neg hq
    rw [hset]
    exact ⟨rfl, rfl, id, fun _ => rfl⟩

theorem novaInvalidateDentries_spec (sEpochId : Nat) (verifies : Bool) (f : ListedDir) (u : NovaInodeUpdate) :
    Invalidated f (novaInvalidateDentries sEpochId verifies f u) u := by
  cases hcreate : u.createDentry with
  | none =>
      have hsame : novaInvalidateDentries sEpochId verifies f u = f := by
        unfold novaInvalidateDentries
        rw [hcreate]
      rw [hsame]
      exact ⟨rfl, rfl, rfl, fun _ => ⟨rfl, rfl⟩, fun _ h => h, fun _ _ _ => rfl, by simp [hcreate]⟩
  | some create =>
      cases hdelete : u.deleteDentry with
      | none =>
          have hsame : novaInvalidateDentries sEpochId verifies f u = f := by
            unfold novaInvalidateDentries
            rw [hcreate, hdelete]
          rw [hsame]
          exact ⟨rfl, rfl, rfl, fun _ => ⟨rfl, rfl⟩, fun _ h => h, fun _ _ _ => rfl, by simp [hdelete]⟩
      | some delete =>
          have hflag : ∀ q, (if q = create then true else f.reassigned q) = true ↔
              f.reassigned q = true ∨ (u.createDentry = some q ∧ u.deleteDentry ≠ none) := by
            intro q
            by_cases hq : q = create
            · simp [hcreate, hdelete, hq]
            · simp [hcreate, hdelete, hq, Ne.symm hq]
          unfold novaInvalidateDentries
          simp only [hcreate, hdelete]
          by_cases hstop : (!verifies) = true ∨ (f.dir.dentries create).epochId ≠ sEpochId
          · have hsame : (if (!verifies) = true then novaReassignLogentry f create
                else if ((novaReassignLogentry f create).dir.dentries create).epochId ≠ sEpochId then
                  novaReassignLogentry f create
                else novaInvalidateLogentry (novaInvalidateLogentry (novaReassignLogentry f create) create) delete) =
                novaReassignLogentry f create := by
              by_cases hv : (!verifies) = true
              · rw [if_pos hv]
              · rw [if_neg hv]
                exact if_pos (hstop.resolve_left hv)
            rw [hsame]
            exact ⟨rfl, rfl, rfl, fun _ => ⟨rfl, rfl⟩, fun _ h => h, fun _ _ _ => rfl, hflag⟩
          · rw [not_or, not_not] at hstop
            rw [if_neg hstop.1, if_neg (show ¬ ((novaReassignLogentry f create).dir.dentries create).epochId ≠ sEpochId
              from not_not.mpr hstop.2)]
            have h1 := novaInvalidateLogentry_spec (novaReassignLogentry f create) create
            have h2 := novaInvalidateLogentry_spec (novaInvalidateLogentry (novaReassignLogentry f create) create) delete
            refine ⟨rfl, rfl, rfl, fun q => ⟨(h2 q).1.trans (h1 q).1, (h2 q).2.1.trans (h1 q).2.1⟩,
              fun q hv => (h1 q).2.2.1 ((h2 q).2.2.1 hv), fun q hc hd => ?_, hflag⟩
            have hqc : q ≠ create := by
              rintro rfl
              exact hc hcreate
            have hqd : q ≠ delete := by
              rintro rfl
              exact hd hdelete
            exact ((h2 q).2.2.2 hqd).trans ((h1 q).2.2.2 hqc)

/-- **Marking keeps the invariant.** -/
theorem ListedInv.invalidate {u : NovaInodeUpdate} (h : ListedInv env renv s (u :: us)) (sEpochId : Nat)
    (verifies : Bool) :
    ListedInv env renv { s with file := novaInvalidateDentries sEpochId verifies s.file u } us := by
  have hspec := novaInvalidateDentries_spec sEpochId verifies s.file u
  generalize novaInvalidateDentries sEpochId verifies s.file u = f at hspec
  have hoff : ∀ q, Off f us q ↔ Off s.file (u :: us) q := by
    intro q
    unfold Off
    rw [hspec.reassigned]
    simp only [List.mem_cons, exists_eq_or_imp]
    rw [or_assoc]
    refine or_congr_right (or_congr_left ⟨And.left, fun hc => ⟨hc, fun hd => ?_⟩⟩)
    exact absurd (hc.symm.trans (h.marked u List.mem_cons_self hd)) (by simp)
  -- a name that is present has a dentry that is not marked
  have hsame : ∀ name p, s.names name = some p → f.dir.dentries p = s.file.dir.dentries p := by
    intro name p hp
    obtain ⟨-, hon, -⟩ := h.named name p hp
    refine hspec.others p (fun hc => hon (Or.inr ⟨u, List.mem_cons_self, hc⟩)) fun hd => ?_
    exact (h.dir.linked name p hp).2.1 (h.deleted u List.mem_cons_self p hd).2
  refine ⟨⟨?_, ?_, ?_⟩, ?_, ?_, h.absent, h.inode, ?_, ?_, ?_, ?_, ?_⟩
  · show DirNodesOk env f.dir.rbTree.toList
    rw [hspec.rbTree]
    exact h.dir.nodes
  · show Keyed dirKey s.names (dirTable f.dir.rbTree.toList)
    rw [hspec.rbTree]
    exact h.dir.keyed
  · intro name p hp
    show (f.dir.dentries p).name = name ∧ (f.dir.dentries p).ino ≠ 0 ∧ (f.dir.dentries p).invalid = false
    rw [hsame name p hp]
    exact h.dir.linked name p hp
  · show (f.log.filterMap DirLogEntry.dentry).Nodup
    rw [hspec.log]
    exact h.nodup
  · intro name p hp
    obtain ⟨hmem, hon, hinode⟩ := h.named name p hp
    refine ⟨?_, (hoff p).not.mpr hon, ?_⟩
    · show .dirLog p ∈ f.log
      rwa [hspec.log]
    · show s.inodes name = some (f.dir.dentries p).ino
      rw [hsame name p hp]
      exact hinode
  · intro p hp hino hvalid hon
    have hp' : .dirLog p ∈ s.file.log := hspec.log ▸ hp
    show s.names (f.dir.dentries p).name = some p
    rw [(hspec.kept p).2]
    exact h.live p hp' ((hspec.kept p).1 ▸ hino) (hspec.valid p hvalid) ((hoff p).not.mp hon)
  · exact fun v hv => h.marked v (List.mem_cons_of_mem _ hv)
  · intro v hv p hp
    obtain ⟨hmem, hino⟩ := h.deleted v (List.mem_cons_of_mem _ hv) p hp
    refine ⟨?_, (hspec.kept p).1.trans hino⟩
    show .dirLog p ∈ f.log
    rwa [hspec.log]
  · intro v hv p hp
    show .dirLog p ∈ f.log
    rw [hspec.log]
    exact h.created v (List.mem_cons_of_mem _ hv) p hp
  · show f.logHead ≠ 0
    rw [hspec.logHead]
    exact h.logHead

theorem ListedInv.commit (sEpochId : Nat) (verifies : Bool) : ∀ (us : List NovaInodeUpdate) (s : ListedState),
    ListedInv env renv s us →
      ListedInv env renv { s with file := us.foldl (novaInvalidateDentries sEpochId verifies) s.file } []
  | [], _, h => h
  | u :: us, s, h => ListedInv.commit sEpochId verifies us
      { s with file := novaInvalidateDentries sEpochId verifies s.file u } (h.invalidate sEpochId verifies)

theorem ListedInv.ops (ops : List DirOp) : ∀ {s : ListedState} {us : List NovaInodeUpdate},
    ListedInv env renv s us → OpsEnabled env renv s ops → ∀ {t : ListedState} {us' : List NovaInodeUpdate},
      runOps env s us ops = (t, .ok us') → ListedInv env renv t us' := by
  induction ops with
  | nil =>
      intro s us h _ t us' hrun
      obtain ⟨rfl, hus⟩ := Prod.mk.inj hrun
      obtain rfl : us = us' := Except.ok.inj hus
      exact h
  | cons op ops ih =>
      rintro s us h ⟨⟨hen, hnew, hmode⟩, hrest⟩ t us' hrun
      rw [runOps] at hrun
      rcases hop : op.run env s.file.dir with ⟨d, e | u⟩
      · rw [hop] at hrun
        cases hrun
      · rw [hop] at hrun
        exact ih (h.logged hen hnew hmode hop) (hrest d u hop) hrun

/-- An addition that fails leaves what was there. -/
theorem ListedInv.addFails {c : DentryCall} {ino : Nat} {slab : Option Nat} {update : NovaInodeUpdate} {d : NovaDir}
    {e : Errno} (h : ListedInv env renv s []) (hen : (DirOp.add c ino slab update).Enabled s.base)
    (hnew : ∀ p, c.append.written = some p → DirLogEntry.dirLog p ∉ s.file.log)
    (hrun : novaAddDentry env s.file.dir c ino slab update = (d, .error e)) :
    ListedInv env renv { s with file := { s.file with dir := d } } [] := by
  have hbase : (⟨d, s.names⟩ : DirState) = (DirOp.add c ino slab update).apply env s.base := by
    unfold ListedState.base DirOp.apply DirOp.run
    dsimp only
    rw [hrun]
  have hdir : DirInv env ⟨d, s.names⟩ := hbase ▸ h.dir.step hen trivial
  obtain ⟨hother, -⟩ := novaAddDentry_spec h.dir.nodes c ino update hen.1 hen.2.2.1.2
  have hsame : ∀ q, .dirLog q ∈ s.file.log → d.dentries q = s.file.dir.dentries q := by
    intro q hq
    have hd : (novaAddDentry env s.file.dir c ino slab update).1 = d := congrArg Prod.fst hrun
    rw [← hd]
    exact hother q fun hw => hnew q hw hq
  refine ⟨hdir, h.nodup, fun name p hp => ?_, h.absent, h.inode, fun p hp hino hvalid hon => ?_, nofun, nofun, nofun,
    h.logHead⟩
  · obtain ⟨hmem, hon, hinode⟩ := h.named name p hp
    refine ⟨hmem, hon, ?_⟩
    show s.inodes name = some (d.dentries p).ino
    rw [hsame p hmem]
    exact hinode
  · have hd : (({ s with file := { s.file with dir := d } } : ListedState).file.dir.dentries p) =
        s.file.dir.dentries p := hsame p hp
    rw [hd] at hino hvalid ⊢
    exact h.live p hp hino hvalid hon

/-- A store to the dentry of a name that is present. -/
theorem ListedInv.changeParent {p ino : Nat} (h : ListedInv env renv s []) (hp : s.names dotdot = some p)
    (hino : ino ≠ 0) (hmode : renv.childMode ino = .ok (renv.mode ino)) :
    ListedInv env renv { s with
      file := { s.file with dir := s.file.dir.setDentry p { s.file.dir.dentries p with ino := ino } }
      inodes := Function.update s.inodes dotdot (some ino) } [] := by
  have hset : ∀ q, q ≠ p →
      (s.file.dir.setDentry p { s.file.dir.dentries p with ino := ino }).dentries q = s.file.dir.dentries q :=
    fun q hq => if_neg hq
  have hself : (s.file.dir.setDentry p { s.file.dir.dentries p with ino := ino }).dentries p =
      { s.file.dir.dentries p with ino := ino } := if_pos rfl
  generalize hd : s.file.dir.setDentry p { s.file.dir.dentries p with ino := ino } = d at hset hself
  have htree : d.rbTree = s.file.dir.rbTree := by
    rw [← hd]
    rfl
  obtain ⟨hname, -, hvalid'⟩ : (s.file.dir.dentries p).name = dotdot ∧ (s.file.dir.dentries p).ino ≠ 0 ∧
      (s.file.dir.dentries p).invalid = false := h.dir.linked dotdot p hp
  have hunique : ∀ q, s.names dotdot = some q → q = p := fun q hq => Option.some.inj (hq.symm.trans hp)
  have hother : ∀ name q, s.names name = some q → name ≠ dotdot → q ≠ p :=
    fun name q hq hne => h.dir.apart hq hp hne
  refine ⟨⟨?_, ?_, fun name q hq => ?_⟩, h.nodup, fun name q hq => ?_, fun name hnone => ?_, fun name i hi => ?_,
    fun q hq hi hv hon => ?_, nofun, nofun, nofun, h.logHead⟩
  · show DirNodesOk env d.rbTree.toList
    rw [htree]
    exact h.dir.nodes
  · show Keyed dirKey s.names (dirTable d.rbTree.toList)
    rw [htree]
    exact h.dir.keyed
  · show (d.dentries q).name = name ∧ (d.dentries q).ino ≠ 0 ∧ (d.dentries q).invalid = false
    by_cases hne : name = dotdot
    · subst hne
      rw [hunique q hq, hself]
      exact ⟨hname, hino, hvalid'⟩
    · rw [hset q (hother name q hq hne)]
      exact h.dir.linked name q hq
  · obtain ⟨hmem, hon, hinode⟩ := h.named name q hq
    refine ⟨hmem, hon, ?_⟩
    show Function.update s.inodes dotdot (some ino) name = some (d.dentries q).ino
    by_cases hne : name = dotdot
    · subst hne
      rw [hunique q hq, Function.update_self, hself]
    · rw [Function.update_of_ne hne, hset q (hother name q hq hne)]
      exact hinode
  · have hne : name ≠ dotdot := by
      rintro rfl
      exact absurd (hp.symm.trans hnone) (by simp)
    exact (Function.update_of_ne hne _ _).trans (h.absent name hnone)
  · have hi' : Function.update s.inodes dotdot (some ino) name = some i := hi
    by_cases hne : name = dotdot
    · rw [hne, Function.update_self, Option.some.injEq] at hi'
      exact hi' ▸ hmode
    · rw [Function.update_of_ne hne] at hi'
      exact h.inode name i hi'
  · have hi' : (d.dentries q).ino ≠ 0 := hi
    have hv' : (d.dentries q).invalid = false := hv
    show s.names (d.dentries q).name = some q
    by_cases hqp : q = p
    · rw [hqp, hself]
      show s.names (s.file.dir.dentries p).name = some p
      rw [hname]
      exact hp
    · rw [hset q hqp] at hi' hv' ⊢
      exact h.live q hq hi' hv' hon

/-- What is not a dentry is appended. -/
theorem ListedInv.note {e : DirLogEntry} (h : ListedInv env renv s []) (he : e.dentry = none) :
    ListedInv env renv { s with file := { s.file with log := s.file.log ++ [e] } } [] := by
  refine ⟨h.dir, ?_, fun name p hp => ?_, h.absent, h.inode, fun p hp => ?_, nofun, nofun, nofun, h.logHead⟩
  · show ((s.file.log ++ [e]).filterMap DirLogEntry.dentry).Nodup
    simpa [List.filterMap_append, he] using h.nodup
  · obtain ⟨hmem, hon, hinode⟩ := h.named name p hp
    exact ⟨List.mem_append_left _ hmem, hon, hinode⟩
  · rcases List.mem_append.mp hp with hp | hp
    · exact h.live p hp
    · obtain rfl := List.mem_singleton.mp hp
      cases he

/-- **A step that runs to its end keeps the invariant.** -/
theorem ListedInv.step {a : ListedAct} (h : ListedInv env renv s [])
    (hstep : Guarded (ListedAct.Completes env) (ListedStep env renv) s a t) : ListedInv env renv t [] := by
  obtain ⟨hdone, hstep⟩ := hstep
  cases hstep with
  | @tx ops sEpochId verifies hen =>
      unfold applyTx
      rcases hdone with ⟨t, us, hrun⟩ | ⟨c, ino, slab, update, rfl⟩
      · rw [hrun]
        exact ListedInv.commit sEpochId verifies us t (ListedInv.ops ops h hen hrun)
      · obtain ⟨⟨hen, hnew, hmode⟩, -⟩ := id hen
        rcases hop : (DirOp.add c ino slab update).run env s.file.dir with ⟨d, e | u⟩
        · have hrun : runOps env s [] [.add c ino slab update] =
              ({ s with file := { s.file with dir := d } }, .error e) := by
            rw [runOps, hop]
          rw [hrun]
          exact h.addFails hen hnew hop
        · have hrun : runOps env s [] [.add c ino slab update] =
              ((DirOp.add c ino slab update).logged s d u, .ok []) := by
            rw [runOps, hop]
            rfl
          rw [hrun]
          exact h.logged hen hnew hmode hop
  | setAttr => exact h.note rfl
  | linkChange => exact h.note rfl
  | changeParent hp hino hmode => exact h.changeParent hp hino hmode

end Inv

/-! ### The two listings -/

/-- The entry is of a name that is present, for the inode it was added for and of its type. -/
def LiveEntry (renv : ReaddirEnv) (s : ListedState) (x : Dirent) : Prop :=
  s.inodes x.name = some x.ino ∧ ∃ mode, renv.childMode x.ino = .ok mode ∧ x.type = if2dt mode

/-- The listing holds the entries of the names that are present, each of them once. -/
def Lists (renv : ReaddirEnv) (s : ListedState) (l : List Dirent) : Prop :=
  l.Nodup ∧ ∀ x, x ∈ l ↔ LiveEntry renv s x

/-- All names that are present were added for one inode. -/
def OneInodeNumber (s : ListedState) : Prop :=
  ∀ name name' ino ino', s.inodes name = some ino → s.inodes name' = some ino' → ino = ino'

section Listings

variable {env : BallocEnv} {renv : ReaddirEnv} {s t : ListedState} {ps : List Nat}

/-- A node is where its hash leads. -/
theorem dirTable_self {l : List RangeNode} {n : RangeNode} (h : DirNodesOk env l) (hn : n ∈ l) :
    dirTable l n.hash = some n.direntry := by
  obtain ⟨A, B, rfl⟩ := List.append_of_mem hn
  obtain ⟨hA, -, -, -⟩ := h.around
  have hnone : A.find? (fun m => decide (m.hash = n.hash)) = none := by
    refine List.find?_eq_none.mpr fun a ha => ?_
    have := hA a ha
    simp
    omega
  unfold dirTable
  rw [List.find?_append, hnone, List.find?_cons]
  simp

/-- **The dentries that are listed are those of the names that are present.** -/
theorem ListedInv.mem_listed (h : ListedInv env renv s []) {p : Nat} :
    p ∈ s.file.listed s.file.log ↔ ∃ name, s.names name = some p := by
  have hoff : Off s.file [] p ↔ s.file.reassigned p = true := by simp [Off]
  rw [ListedDir.mem_listed]
  unfold ListedDir.lists
  simp only [Bool.and_eq_true, decide_eq_true_eq, Bool.not_eq_true']
  constructor
  · rintro ⟨hmem, ⟨hino, hvalid⟩, hflag⟩
    exact ⟨_, h.live p hmem (by omega) hvalid (by rw [hoff, hflag]; simp)⟩
  · rintro ⟨name, hp⟩
    obtain ⟨hmem, hon, -⟩ := h.named name p hp
    obtain ⟨-, hino, hvalid⟩ := h.dir.linked name p hp
    rw [hoff, Bool.not_eq_true] at hon
    exact ⟨hmem, ⟨Nat.pos_of_ne_zero hino, hvalid⟩, hon⟩

theorem ListedInv.mem_nodes (h : ListedInv env renv s []) {p : Nat} :
    p ∈ s.file.dir.nodes.map RangeNode.direntry ↔ ∃ name, s.names name = some p := by
  constructor
  · intro hp
    obtain ⟨n, hn, rfl⟩ := List.mem_map.mp hp
    obtain ⟨name, -, hname⟩ := h.dir.keyed.named _ _ (dirTable_self h.dir.nodes hn)
    exact ⟨name, hname⟩
  · rintro ⟨name, hp⟩
    obtain ⟨n, hn, -, hnp⟩ := dirTable_mem (h.dir.keyed.stored name p hp)
    exact List.mem_map.mpr ⟨n, hn, hnp⟩

theorem ListedInv.nodes_nodup (h : ListedInv env renv s []) : (s.file.dir.nodes.map RangeNode.direntry).Nodup := by
  have hhash : ∀ n ∈ s.file.dir.nodes, n.hash = dirKey (s.file.dir.dentries n.direntry).name := by
    intro n hn
    obtain ⟨name, hkey, hname⟩ := h.dir.keyed.named _ _ (dirTable_self h.dir.nodes hn)
    obtain ⟨hentry, -, -⟩ : (s.file.dir.dentries n.direntry).name = name ∧ _ := h.dir.linked name _ hname
    rw [hentry, hkey]
  refine List.Nodup.of_map (fun p => dirKey (s.file.dir.dentries p).name) ?_
  have hmap : (s.file.dir.nodes.map RangeNode.direntry).map (fun p => dirKey (s.file.dir.dentries p).name) =
      s.file.dir.nodes.map RangeNode.hash := by
    rw [List.map_map]
    exact List.map_congr_left fun n hn => (hhash n hn).symm
  rw [hmap]
  exact List.pairwise_map.mpr (h.dir.nodes.sorted.imp fun hlt => Nat.ne_of_lt hlt)

/-- The dentries of the names are there to be read. -/
theorem ListedInv.present (h : ListedInv env renv s []) (hps : ∀ p, p ∈ ps ↔ ∃ name, s.names name = some p) {p : Nat}
    (hp : p ∈ ps) : s.names (s.file.dir.dentries p).name = some p ∧ (s.file.dir.dentries p).ino ≠ 0 ∧
      s.inodes (s.file.dir.dentries p).name = some (s.file.dir.dentries p).ino ∧
      renv.childMode (s.file.dir.dentries p).ino = .ok (renv.mode (s.file.dir.dentries p).ino) := by
  obtain ⟨name, hname⟩ := (hps p).mp hp
  obtain ⟨hentry, hino, -⟩ : (s.file.dir.dentries p).name = name ∧ (s.file.dir.dentries p).ino ≠ 0 ∧ _ :=
    h.dir.linked name p hname
  obtain ⟨-, -, hinode⟩ := h.named name p hname
  rw [hentry]
  exact ⟨hname, hino, hinode, h.inode name _ hinode⟩

theorem ListedInv.live_iff (h : ListedInv env renv s []) (hps : ∀ p, p ∈ ps ↔ ∃ name, s.names name = some p)
    (x : Dirent) : (∃ p ∈ ps, x = s.file.dirent renv p p) ↔ LiveEntry renv s x := by
  constructor
  · rintro ⟨p, hp, rfl⟩
    obtain ⟨-, -, hinode, hmode⟩ := h.present hps hp
    exact ⟨hinode, _, hmode, rfl⟩
  · rintro ⟨hinode, mode, hmode, htype⟩
    have hpresent : s.names x.name ≠ none := by
      intro hnone
      rw [h.absent _ hnone] at hinode
      cases hinode
    obtain ⟨p, hp⟩ := Option.ne_none_iff_exists'.mp hpresent
    obtain ⟨hentry, -⟩ : (s.file.dir.dentries p).name = x.name ∧ _ := h.dir.linked x.name p hp
    obtain ⟨-, -, hinode'⟩ := h.named x.name p hp
    have hino : x.ino = (s.file.dir.dentries p).ino := Option.some.inj (hinode.symm.trans hinode')
    have hm : renv.mode x.ino = mode := by
      unfold ReaddirEnv.mode
      rw [hmode]
    refine ⟨p, (hps p).mpr ⟨_, hp⟩, ?_⟩
    unfold ListedDir.dirent
    rw [hentry, ← hino, hm, ← htype]

theorem ListedInv.name_inj (h : ListedInv env renv s []) (hps : ∀ p, p ∈ ps ↔ ∃ name, s.names name = some p) :
    ∀ p ∈ ps, ∀ q ∈ ps, (s.file.dir.dentries p).name = (s.file.dir.dentries q).name → p = q := by
  intro p hp q hq heq
  have hp' := (h.present hps hp).1
  rw [heq, (h.present hps hq).1] at hp'
  exact (Option.some.inj hp').symm

theorem ListedInv.lists (h : ListedInv env renv s []) (hps : ∀ p, p ∈ ps ↔ ∃ name, s.names name = some p)
    (hnodup : ps.Nodup) : Lists renv s (ps.map fun p => s.file.dirent renv p p) := by
  refine ⟨?_, fun x => ?_⟩
  · refine List.Nodup.of_map Dirent.name ?_
    rw [List.map_map]
    exact hnodup.map_on fun p hp q hq heq => h.name_inj hps p hp q hq heq
  · rw [← h.live_iff hps, List.mem_map]
    simp only [eq_comm]

/-- **A listing one step late is right when there is only one inode number.** -/
theorem ListedInv.lists_late_iff (h : ListedInv env renv s [])
    (hps : ∀ p, p ∈ ps ↔ ∃ name, s.names name = some p) (hnodup : ps.Nodup) :
    Lists renv s (late (s.file.dirent renv) ps) ↔ OneInodeNumber s := by
  have hchain : (ps.IsChain fun p q => s.file.dirent renv p q = s.file.dirent renv p p) ↔ OneInodeNumber s := by
    have hino : ∀ p q, s.file.dirent renv p q = s.file.dirent renv p p ↔
        (s.file.dir.dentries p).ino = (s.file.dir.dentries q).ino := by
      intro p q
      simp [ListedDir.dirent, eq_comm]
    simp only [hino]
    have htrans : IsTrans Nat fun p q => (s.file.dir.dentries p).ino = (s.file.dir.dentries q).ino :=
      ⟨fun _ _ _ h1 h2 => h1.trans h2⟩
    rw [List.isChain_iff_pairwise]
    constructor
    · intro hpair name name' ino ino' hn hn'
      obtain ⟨p, hp, hx⟩ := (h.live_iff hps ⟨name, ino, if2dt (renv.mode ino)⟩).mpr ⟨hn, _, h.inode name ino hn, rfl⟩
      obtain ⟨q, hq, hy⟩ := (h.live_iff hps ⟨name', ino', if2dt (renv.mode ino')⟩).mpr
        ⟨hn', _, h.inode name' ino' hn', rfl⟩
      have hpi : ino = (s.file.dir.dentries p).ino := congrArg Dirent.ino hx
      have hqi : ino' = (s.file.dir.dentries q).ino := congrArg Dirent.ino hy
      rw [hpi, hqi]
      have hsymm : Std.Symm fun p q => (s.file.dir.dentries p).ino = (s.file.dir.dentries q).ino :=
        ⟨fun _ _ heq => heq.symm⟩
      exact List.Pairwise.forall_of_forall (R := fun p q => (s.file.dir.dentries p).ino = (s.file.dir.dentries q).ino)
        (fun _ _ => rfl) hpair hp hq
    · intro hone
      refine List.pairwise_of_forall_mem_list fun p hp q hq => ?_
      exact hone _ _ _ _ (h.present hps hp).2.2.1 (h.present hps hq).2.2.1
  rw [← hchain]
  have hname : ∀ p q, (s.file.dirent renv p q).name = (s.file.dir.dentries p).name := fun _ _ => rfl
  constructor
  · rintro ⟨-, hall⟩
    refine (late_subset_iff hname (h.name_inj hps) fun _ hp => hp).mp fun x hx => ?_
    exact (h.live_iff hps x).mpr ((hall x).mp hx)
  · intro hsame
    rw [late_eq_map hsame]
    exact h.lists hps hnodup

theorem ListedInv.runs (hstart : ListedStart s)
    (hrun : Runs (Guarded (ListedAct.Completes env) (ListedStep env renv)) s t) : ListedInv env renv t [] := by
  have hkeep : ∀ s a t, ListedInv env renv s [] → Guarded (ListedAct.Completes env) (ListedStep env renv) s a t →
      ListedInv env renv t [] := fun _ _ _ hinv hstep => hinv.step hstep
  exact hrun.invariant hkeep hstart.inv

/-- **The walk over the tree lists the directory.  The walk over the log does just where all its
names were added for one inode.** -/
theorem novaReaddir_lists (hmedia : ∀ p, renv.verifies p = true) (hstart : ListedStart s)
    (hrun : Runs (Guarded (ListedAct.Completes env) (ListedStep env renv)) s t) (room : Nat)
    (hlog : t.file.log.length ≤ room) (hnodes : t.file.dir.nodes.length ≤ room) :
    ∃ slow fast, novaReaddirSlowRbtree env renv t.file ⟨0, room, []⟩ = some (slow, .ok ()) ∧
      novaReaddirFast env renv t.file ⟨0, room, []⟩ = (fast, .ok ()) ∧ slow.pos = readdirEnd ∧ fast.pos = readdirEnd ∧
      Lists renv t slow.emitted ∧ (Lists renv t fast.emitted ↔ OneInodeNumber t) := by
  have h := ListedInv.runs hstart hrun
  have hlen : (t.file.listed t.file.log).length ≤ room :=
    ((List.length_filter_le _ _).trans (List.length_filterMap_le _ _)).trans hlog
  have hslow : novaReaddirSlowRbtree env renv t.file ⟨0, room, []⟩ = some (⟨readdirEnd,
      room - t.file.dir.nodes.length, (t.file.dir.nodes.map RangeNode.direntry).map fun p => t.file.dirent renv p p⟩,
      .ok ()) := by
    unfold novaReaddirSlowRbtree
    dsimp only
    rw [if_pos rfl, novaReaddirSlowLoop_spec hmedia _ _ hnodes, List.nil_append, List.map_map]
    · rfl
    · intro n hn
      obtain ⟨-, hino, -, hmode⟩ := h.present (fun _ => h.mem_nodes) (List.mem_map_of_mem hn)
      exact ⟨hino, hmode⟩
  have hread : Readable renv t.file t.file.log :=
    ⟨hmedia, fun p hp => (h.present (fun _ => h.mem_listed) hp).2.2.2⟩
  have hfast : novaReaddirFast env renv t.file ⟨0, room, []⟩ = (⟨readdirEnd,
      room - (t.file.listed t.file.log).length, late (t.file.dirent renv) (t.file.listed t.file.log)⟩, .ok ()) := by
    unfold novaReaddirFast readdirStart
    dsimp only
    rw [if_neg h.logHead, if_pos rfl]
    dsimp only
    rw [novaReaddirFastLoop_spec t.file.log 0 room 0 [] hread, List.nil_append,
      List.take_of_length_le (by rw [length_late]; exact hlen), ListedDir.stopsAt, List.drop_of_length_le hlen]
  exact ⟨_, _, hslow, hfast, rfl, rfl, h.lists (fun _ => h.mem_nodes) h.nodes_nodup,
    h.lists_late_iff (fun _ => h.mem_listed) (h.nodup.filter _)⟩

end Listings

/-! ### A directory in the root -/

/-- Every inode is there, and is a directory. -/
def plainReaddirEnv : ReaddirEnv := ⟨fun _ => true, fun _ => .ok 0x4000⟩

/-- A directory that was just made. -/
def emptyListed : ListedState where
  file := ⟨emptyDir.dir, 4096, [], fun _ => false⟩
  names _ := none
  inodes _ := none

theorem emptyListed_start : ListedStart emptyListed :=
  ⟨⟨rfl, fun _ => rfl⟩, rfl, by decide, fun _ => rfl⟩

/-- A name is added for an inode; its dentry and its node go to these places. -/
def addEntry (name : List UInt8) (ino p slab : Nat) : DirOp :=
  .add (dirCall name (.appended p)) ino (some slab) ⟨0, 0, none, none⟩

/-- A name that is absent, with free places for its dentry and its node. -/
theorem addEntry_step {name : List UInt8} {ino p slab : Nat} {s : ListedState}
    (hname : 1 ≤ name.length ∧ name.length ≤ 255) (hino : ino ≠ 0) (habsent : s.names name = none)
    (hlog : DirLogEntry.dirLog p ∉ s.file.log) (hnodes : ∀ n ∈ s.file.dir.nodes, n.direntry ≠ p ∧ n.addr ≠ slab) :
    Guarded (ListedAct.Completes plainDirEnv) (ListedStep plainDirEnv plainReaddirEnv) s
      (.tx [addEntry name ino p slab] 1 true) (applyTx plainDirEnv 1 true s [addEntry name ino p slab]) := by
  have hfresh : (addEntry name ino p slab).Fresh s.base.dir := by
    refine ⟨fun q hq n hn => ?_, fun addr haddr hmem => ?_⟩
    · obtain rfl : p = q := Option.some.inj hq
      exact (hnodes n hn).1
    · obtain rfl : slab = addr := Option.some.inj haddr
      obtain ⟨n, hn, hn'⟩ := List.mem_map.mp hmem
      exact (hnodes n hn).2 hn'
  refine ⟨Or.inr ⟨_, _, _, _, rfl⟩, ListedStep.tx ⟨⟨⟨hname.1, hname.2, hfresh, habsent, hino⟩, fun q hq => ?_,
    fun _ _ => rfl⟩, fun _ _ _ => trivial⟩⟩
  obtain rfl : p = q := Option.some.inj hq
  exact hlog

/-- The directory with its own name `.`, for the inode 33. -/
def listedOne : ListedState := applyTx plainDirEnv 1 true emptyListed [addEntry [46] 33 4096 1]

/-- And with the name of its father, for the inode 1. -/
def listedTwo : ListedState := applyTx plainDirEnv 1 true listedOne [addEntry dotdot 1 4140 2]

theorem listedOne_step : Guarded (ListedAct.Completes plainDirEnv) (ListedStep plainDirEnv plainReaddirEnv) emptyListed
    (.tx [addEntry [46] 33 4096 1] 1 true) listedOne :=
  addEntry_step (by decide) (by decide) rfl (by decide) (by decide)

theorem listedTwo_step : Guarded (ListedAct.Completes plainDirEnv) (ListedStep plainDirEnv plainReaddirEnv) listedOne
    (.tx [addEntry dotdot 1 4140 2] 1 true) listedTwo :=
  addEntry_step (by decide) (by decide) (by decide +kernel) (by decide +kernel) (by decide +kernel)

theorem novaReaddir_lists_one : ∃ slow fast,
    novaReaddirSlowRbtree plainDirEnv plainReaddirEnv listedOne.file ⟨0, 4, []⟩ = some (slow, .ok ()) ∧
      novaReaddirFast plainDirEnv plainReaddirEnv listedOne.file ⟨0, 4, []⟩ = (fast, .ok ()) ∧
      slow.pos = readdirEnd ∧ fast.pos = readdirEnd ∧ Lists plainReaddirEnv listedOne slow.emitted ∧
      (Lists plainReaddirEnv listedOne fast.emitted ↔ OneInodeNumber listedOne) :=
  novaReaddir_lists (fun _ => rfl) emptyListed_start (Runs.single listedOne_step) 4 (by decide +kernel)
    (by decide +kernel)

/-- A directory with the inode 33 in the root, whose inode is 1, lists its `.` as the inode 1. -/
theorem novaReaddirFast_borrows :
    ¬∀ (env : BallocEnv) (renv : ReaddirEnv) (s t : ListedState) (room : Nat), (∀ p, renv.verifies p = true) →
      ListedStart s → Runs (Guarded (ListedAct.Completes env) (ListedStep env renv)) s t →
      t.file.log.length ≤ room → t.file.dir.nodes.length ≤ room →
      ∃ fast, novaReaddirFast env renv t.file ⟨0, room, []⟩ = (fast, .ok ()) ∧ Lists renv t fast.emitted := by
  intro hall
  obtain ⟨fast, hfast, -, hlists⟩ := hall plainDirEnv plainReaddirEnv emptyListed listedTwo 4 (fun _ => rfl)
    emptyListed_start ((Runs.single listedOne_step).tail listedTwo_step) (by decide +kernel) (by decide +kernel)
  have hemitted : (novaReaddirFast plainDirEnv plainReaddirEnv listedTwo.file ⟨0, 4, []⟩).1.emitted =
      [⟨[46], 1, 4⟩, ⟨dotdot, 1, 4⟩] := by decide +kernel
  rw [hfast] at hemitted
  have hself := ((hlists ⟨[46], 1, 4⟩).mp (by rw [hemitted]; simp)).1
  have hinode : listedTwo.inodes [46] = some 33 := by decide +kernel
  rw [hinode] at hself
  simp at hself

end Parfs
