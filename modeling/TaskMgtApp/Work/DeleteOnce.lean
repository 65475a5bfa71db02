import TaskMgtApp.Work.Cascade
import TaskMgtApp.Work.Patches

/-!
# Deletes side by side

A DELETE looks its row up with one statement and stamps it with another, by its primary
key; the cascade of a project stamps the active tasks with one statement. A row is stamped
once as long as no request finds it active while another request that has found it is
under way. If two have found it, both succeed, and the later commit moves `deleted_at`.
-/
namespace TaskMgtApp.Work

open TaskMgtApp.Common
open TaskMgtApp.Lib.Program TaskMgtApp.Lib.Program.Prog
open TaskMgtApp.Lib.Interleaving TaskMgtApp.Lib.Rows

/-! ## Rows and what stamps them -/

/-- A row of `tasks` or of `projects`, by its primary key. -/
inductive RowId where
  | task (id : UUID)
  | project (id : UUID)
  deriving DecidableEq

/-- The `deleted_at` of the row, if there is one with this id. -/
def World.deletedAt (w : World) : RowId → Option (Option Nat)
  | .task id => (w.tasks.find? fun t => t.id == id).map Task.deletedAt
  | .project id => (w.projects.find? fun p => p.id == id).map Project.deletedAt

/-- The tables after one write. -/
def World.write (w : World) (x : Write) : World :=
  { w with projects := x.onProjects w.projects, tasks := x.onTasks w.tasks }

def Write.touches : Write → RowId → Bool
  | .updateTasks ids _ _, .task id => decide (id ∈ ids)
  | .updateProject id' _ _, .project id => decide (id = id')
  | _, _ => false

def Dirty.touches : Dirty → RowId → Bool
  | .task loaded _, .task id => decide (id = loaded.id)
  | .project loaded _, .project id => decide (id = loaded.id)
  | _, _ => false

/-- A write that sets `deleted_at` and nothing else. -/
def Write.isStamp : Write → Prop
  | .updateTasks _ fields _ => ∃ n, fields = [.deletedAt (some n)]
  | .updateProject _ fields _ => ∃ n, fields = [.deletedAt (some n)]
  | _ => False

/-- An object that was loaded active and has been marked as deleted. -/
def Dirty.isStamp : Dirty → Prop
  | .task loaded fields => loaded.deletedAt = none ∧ ∃ n, fields = [.deletedAt (some n)]
  | .project loaded fields => loaded.deletedAt = none ∧ ∃ n, fields = [.deletedAt (some n)]

/-- The UPDATE of a marked object. -/
def Dirty.update (at_ : Nat) : Dirty → Write
  | .task loaded fields => .updateTasks [loaded.id] fields at_
  | .project loaded fields => .updateProject loaded.id fields at_

section Stamps
variable {w : World} {l : Session} {row : RowId} {x : Write} {y : Dirty}

theorem deletedAt_task (hkeyed : Keyed Task.id w.tasks) {t : Task} (ht : t ∈ w.tasks) :
    w.deletedAt (.task t.id) = some t.deletedAt :=
  congrArg (Option.map Task.deletedAt) (hkeyed.find?_key ht)

theorem deletedAt_project (hkeyed : Keyed Project.id w.projects) {p : Project}
    (hp : p ∈ w.projects) : w.deletedAt (.project p.id) = some p.deletedAt :=
  congrArg (Option.map Project.deletedAt) (hkeyed.find?_key hp)

@[simp] theorem Dirty.touches_update (at_ : Nat) : (y.update at_).touches row = y.touches row := by
  cases y <;> cases row <;> simp [Dirty.update, Write.touches, Dirty.touches]

theorem Dirty.isStamp_update (h : y.isStamp) (at_ : Nat) : (y.update at_).isStamp := by
  cases y <;> exact h.2

/-- A lookup by primary key after an update that keeps it. -/
theorem find?_map_id {α : Type} {rows : List α} {g : α → α} {key : α → UUID} (id : UUID)
    (hg : ∀ a, key (g a) = key a) :
    (rows.map g).find? (fun a => key a == id) = (rows.find? fun a => key a == id).map g := by
  rw [List.find?_map]
  have hkey : (fun a => key a == id) ∘ g = fun a => key a == id := by
    funext a
    rw [Function.comp_apply, hg]
  rw [hkey]

/-- A stamp sets the `deleted_at` of the rows it touches. -/
theorem deletedAt_write (hx : x.isStamp) : ∃ n, (w.write x).deletedAt row =
    (w.deletedAt row).map fun d => if x.touches row then some n else d := by
  cases x with
  | insertProject row => cases hx
  | insertTask row => cases hx
  | updateProject id fields at_ =>
    obtain ⟨n, rfl⟩ := hx
    refine ⟨n, ?_⟩
    cases row with
    | task id' => exact Option.map_id'.symm
    | project id' =>
      have hkey : ∀ p : Project, (if p.id = id then
          { p.setattrs [.deletedAt (some n)] with updatedAt := at_ } else p).id = p.id := by
        intro p
        split <;> rfl
      simp only [World.deletedAt, World.write, Write.onProjects]
      rw [find?_map_id id' hkey]
      cases hp : w.projects.find? fun p => p.id == id' with
      | none => rfl
      | some p =>
        obtain rfl : p.id = id' := by simpa using List.find?_some hp
        simp only [Option.map_some, Write.touches, decide_eq_true_eq]
        split <;> rfl
  | updateTasks ids fields at_ =>
    obtain ⟨n, rfl⟩ := hx
    refine ⟨n, ?_⟩
    cases row with
    | project id' => exact Option.map_id'.symm
    | task id' =>
      have hkey : ∀ t : Task, (if t.id ∈ ids then
          { t.setattrs [.deletedAt (some n)] with updatedAt := at_ } else t).id = t.id := by
        intro t
        split <;> rfl
      simp only [World.deletedAt, World.write, Write.onTasks]
      rw [find?_map_id id' hkey]
      cases ht : w.tasks.find? fun t => t.id == id' with
      | none => rfl
      | some t =>
        obtain rfl : t.id = id' := by simpa using List.find?_some ht
        simp only [Option.map_some, Write.touches, decide_eq_true_eq]
        split <;> rfl

theorem after_eq_foldl (l : Session) (w : World) : l.after w = l.written.foldl World.write w := by
  unfold Session.after Session.projects Session.tasks
  generalize l.written = writes
  induction writes generalizing w with
  | nil => rfl
  | cons x xs ih => exact ih (w.write x)

/-- A row that no write touches keeps its `deleted_at`. -/
theorem deletedAt_untouched (hl : ∀ x ∈ l.written, x.isStamp)
    (hrow : ∀ x ∈ l.written, x.touches row = false) : (l.after w).deletedAt row = w.deletedAt row := by
  rw [after_eq_foldl]
  generalize l.written = writes at hl hrow
  induction writes generalizing w with
  | nil => rfl
  | cons x xs ih =>
    obtain ⟨hx, hxs⟩ := List.forall_mem_cons.mp hl
    obtain ⟨hxrow, hxsrow⟩ := List.forall_mem_cons.mp hrow
    obtain ⟨n, hn⟩ := @deletedAt_write w row _ hx
    rw [List.foldl_cons, ih hxs hxsrow, hn, hxrow]
    exact Option.map_id'

/-- Stamps leave a deleted row deleted. -/
theorem deleted_stamps {writes : List Write} (hwrites : ∀ x ∈ writes, x.isStamp)
    (hd : ∃ n, w.deletedAt row = some (some n)) :
    ∃ n, (writes.foldl World.write w).deletedAt row = some (some n) := by
  induction writes generalizing w with
  | nil => exact hd
  | cons x xs ih =>
    obtain ⟨hx, hxs⟩ := List.forall_mem_cons.mp hwrites
    obtain ⟨n, hn⟩ := @deletedAt_write w row _ hx
    obtain ⟨m, hm⟩ := hd
    refine ih hxs ?_
    rw [hn, hm, Option.map_some]
    split
    · exact ⟨n, rfl⟩
    · exact ⟨m, rfl⟩

/-- A row that some write touches is deleted. -/
theorem deletedAt_touched (hl : ∀ x ∈ l.written, x.isStamp)
    (hrow : ∃ x ∈ l.written, x.touches row = true) (hd : ∃ d, w.deletedAt row = some d) :
    ∃ n, (l.after w).deletedAt row = some (some n) := by
  rw [after_eq_foldl]
  generalize l.written = writes at hl hrow
  induction writes generalizing w with
  | nil =>
    obtain ⟨x, hx, -⟩ := hrow
    cases hx
  | cons x xs ih =>
    obtain ⟨hx, hxs⟩ := List.forall_mem_cons.mp hl
    obtain ⟨n, hn⟩ := @deletedAt_write w row _ hx
    obtain ⟨d, hd⟩ := hd
    rw [hd, Option.map_some] at hn
    rw [List.foldl_cons]
    cases hxrow : x.touches row with
    | true => exact deleted_stamps hxs ⟨n, by rw [hn, hxrow]; rfl⟩
    | false =>
      obtain ⟨y, hy, hyrow⟩ := hrow
      rcases List.mem_cons.mp hy with rfl | hy
      · rw [hxrow] at hyrow
        cases hyrow
      · exact ih ⟨_, hn⟩ hxs ⟨y, hy, hyrow⟩

/-- The flush of marked objects sends the stamp of each. -/
theorem flush_stamps {dirty : List Dirty} (h : ∀ y ∈ dirty, y.isStamp) :
    dirty.foldlM (Session.flushOne w) l =
      some { l with written := l.written ++ dirty.map (Dirty.update (l.clock w)) } := by
  induction dirty generalizing l with
  | nil => simp
  | cons y ys ih =>
    obtain ⟨hy, hys⟩ := List.forall_mem_cons.mp h
    have hone : Session.flushOne w l y = some (l.write (y.update (l.clock w))) := by
      cases y with
      | task loaded fields =>
        obtain ⟨hactive, n, rfl⟩ := hy
        exact flushOne_deleteTask l w hactive n
      | project loaded fields =>
        obtain ⟨hactive, n, rfl⟩ := hy
        exact flushOne_delete l w hactive n
    rw [List.foldlM_cons, hone]
    exact (ih hys).trans (by simp [Session.write, Session.clock])

end Stamps

/-! ## The moves of a DELETE -/

/-- The DELETE of the row. -/
def RowId.request : RowId → Request
  | .task id => .deleteTask id
  | .project id => .deleteProject id

/-- Its lookup. -/
def RowId.select (u : UUID) : RowId → Cmd
  | .task id => .selectTask id u
  | .project id => .selectProject id u

def RowId.notFound : RowId → Exc
  | .task _ => .taskNotFoundError "Task not found."
  | .project _ => .projectNotFoundError "Project not found."

/-- The assignment that marks the object. -/
def Dirty.assign : Dirty → Cmd
  | .task loaded fields => .assignTask loaded fields
  | .project loaded fields => .assignProject loaded fields

/-- The rows that a statement finds active in order to delete them. -/
def Cmd.finds (l : Session) (w : World) : Cmd → List RowId
  | .selectTask id owner =>
      if ((ownedTasks (l.projects w) (l.tasks w) owner).find? fun t => t.id == id).isSome then
        [.task id] else []
  | .selectProject id owner =>
      if ((ownedProjects (l.projects w) owner).find? fun p => p.id == id).isSome then
        [.project id] else []
  | .softDeleteByProject projectId =>
      ((active (l.tasks w)).filter fun t => t.projectId == projectId).map fun t => .task t.id
  | _ => []

inductive DeletePhase where
  | start
  /-- The lookup has found nothing. -/
  | lost
  | found
  /-- The tasks of the project have been stamped. -/
  | cascaded
  /-- The object has been marked. -/
  | marked
  | deleted
  /-- A flush has been refused, which does not happen. -/
  | broken
  deriving DecidableEq

/-- A DELETE under way that has found its row. -/
def DeletePhase.holds : DeletePhase → Bool
  | .found | .cascaded | .marked => true
  | _ => false

inductive DeleteMove (u : UUID) (row : RowId) : DeletePhase → Cmd → State → DeletePhase → Prop
  | find {l : Session} {w : World} (hfinds : (row.select u).finds l w = [row]) :
      DeleteMove u row .start (row.select u) (l, w) .found
  | miss {s : State} : DeleteMove u row .start (row.select u) s .lost
  | cascade {projectId : UUID} {s : State} (hrow : row = .project projectId) :
      DeleteMove u row .found (.softDeleteByProject projectId) s .cascaded
  | clock {φ : DeletePhase} {s : State} (hφ : φ = .found ∨ φ = .cascaded) :
      DeleteMove u row φ .datetimeNow s φ
  | mark {φ : DeletePhase} {y : Dirty} {s : State} (hφ : φ = .found ∨ φ = .cascaded)
      (hy : y.isStamp) (hrow : ∀ r, y.touches r = true ↔ r = row) :
      DeleteMove u row φ y.assign s .marked
  | flush {l l' : Session} {w : World} (hl : l.flush w = some l') :
      DeleteMove u row .marked .flush (l, w) .marked
  | commit {l l' : Session} {w : World} (hl : l.flush w = some l') :
      DeleteMove u row .marked .commit (l, w) .deleted
  | refused {c : Cmd} {l : Session} {w : World} (hl : l.flush w = none) :
      DeleteMove u row .marked c (l, w) .broken
  | rollback {φ : DeletePhase} {s : State} (hφ : φ = .lost ∨ φ = .broken) :
      DeleteMove u row φ .rollback s φ

inductive DeleteFinal (row : RowId) : DeletePhase → Except Exc Reply → Prop
  | deleted : DeleteFinal row .deleted (.ok .noContent)
  | lost : DeleteFinal row .lost (.error row.notFound)
  | broken {o : Except Exc Reply} : DeleteFinal row .broken o

section Obeys
variable {env : Env} {u : UUID} {row : RowId}

/-- The end of a DELETE that has marked its object: flush, commit. -/
theorem marked_obeys : Obeys (exec env) (DeleteMove u row) (DeleteFinal row) .marked
    (getDb (do let _ ← execute .flush; return .noContent)) := by
  rintro ⟨l, w⟩
  cases hl : l.flush w with
  | none =>
    refine ⟨_, .refused hl, ?_⟩
    simp only [exec, hl]
    exact fun s => ⟨_, .rollback (.inr rfl), .broken⟩
  | some l' =>
    refine ⟨_, .flush hl, ?_⟩
    simp only [exec, hl]
    rintro ⟨l, w⟩
    cases hl : l.flush w with
    | none =>
      refine ⟨_, .refused hl, ?_⟩
      simp only [exec, hl]
      exact fun s => ⟨_, .rollback (.inr rfl), .broken⟩
    | some l' =>
      refine ⟨_, .commit hl, ?_⟩
      simp only [exec, hl]
      exact .deleted

theorem obeys_deleteTask (id : UUID) :
    Obeys (exec env) (DeleteMove u (.task id)) (DeleteFinal (.task id)) .start
      ((Request.deleteTask id).program u) := by
  rintro ⟨l, w⟩
  cases ht : (ownedTasks (l.projects w) (l.tasks w) u).find? fun t => t.id == id with
  | none =>
    refine ⟨_, .miss, ?_⟩
    have hexec : (exec env (.selectTask id u) (l, w)).1 = .ok none := congrArg Except.ok ht
    rw [hexec]
    exact fun s => ⟨_, .rollback (.inl rfl), .lost⟩
  | some t =>
    obtain ⟨-, hactive, -⟩ := mem_ownedTasks.mp (List.mem_of_find?_eq_some ht)
    obtain rfl : t.id = id := by simpa using List.find?_some ht
    refine ⟨_, .find (by simp [RowId.select, Cmd.finds, ht]), ?_⟩
    have hexec : (exec env (.selectTask t.id u) (l, w)).1 = .ok (some t) := congrArg Except.ok ht
    rw [hexec]
    rintro ⟨l, w⟩
    refine ⟨_, .clock (.inl rfl), ?_⟩
    intro s
    refine ⟨_, .mark (.inl rfl) (y := .task t [.deletedAt (some w.now)]) ⟨hactive, _, rfl⟩ ?_,
      marked_obeys⟩
    rintro (id | id) <;> simp [Dirty.touches]

theorem obeys_deleteProject (id : UUID) :
    Obeys (exec env) (DeleteMove u (.project id)) (DeleteFinal (.project id)) .start
      ((Request.deleteProject id).program u) := by
  rintro ⟨l, w⟩
  cases hp : (ownedProjects (l.projects w) u).find? fun p => p.id == id with
  | none =>
    refine ⟨_, .miss, ?_⟩
    have hexec : (exec env (.selectProject id u) (l, w)).1 = .ok none := congrArg Except.ok hp
    rw [hexec]
    exact fun s => ⟨_, .rollback (.inl rfl), .lost⟩
  | some p =>
    obtain ⟨-, hactive, -⟩ := mem_ownedProjects.mp (List.mem_of_find?_eq_some hp)
    obtain rfl : p.id = id := by simpa using List.find?_some hp
    refine ⟨_, .find (by simp [RowId.select, Cmd.finds, hp]), ?_⟩
    have hexec : (exec env (.selectProject p.id u) (l, w)).1 = .ok (some p) := congrArg Except.ok hp
    rw [hexec]
    intro s
    refine ⟨_, .cascade rfl, ?_⟩
    rintro ⟨l, w⟩
    refine ⟨_, .clock (.inr rfl), ?_⟩
    intro s
    refine ⟨_, .mark (.inr rfl) (y := .project p [.deletedAt (some w.now)]) ⟨hactive, _, rfl⟩ ?_,
      marked_obeys⟩
    rintro (id | id) <;> simp [Dirty.touches]

/-- DELETE requests side by side. -/
def deletesBeside {ι : Type} (w : World) (deletes : ι → UUID × RowId) : Threads ι :=
  beside w fun i => ((deletes i).1, (deletes i).2.request)

theorem delete_obeys (row : RowId) :
    Obeys (exec env) (DeleteMove u row) (DeleteFinal row) .start (row.request.program u) := by
  cases row with
  | task id => exact obeys_deleteTask id
  | project id => exact obeys_deleteProject id

theorem deletes_obey {ι : Type} (env : Env) (w : World) (deletes : ι → UUID × RowId) :
    AllObey (machine env) (fun i => DeleteMove (deletes i).1 (deletes i).2)
      (fun i => DeleteFinal (deletes i).2) (fun _ => .start) (deletesBeside w deletes) :=
  fun i => delete_obeys (deletes i).2

end Obeys

/-! ## What a session may stamp -/

/-- The rows that a request has found or stamped and not committed. -/
def Holds (row : RowId) (φ : DeletePhase) (l : Session) (r : RowId) : Prop :=
  (φ.holds = true ∧ r = row) ∨ ∃ x ∈ l.written, x.touches r = true

/-- What holds of the session of a DELETE. -/
structure DeleteOk (row : RowId) (φ : DeletePhase) (l : Session) : Prop where
  sound : φ ≠ .broken
  written : φ ≠ .cascaded ∧ φ ≠ .marked → l.written = []
  dirty : φ ≠ .marked → l.dirty = []
  stamps : ∀ x ∈ l.written, x.isStamp
  marks : ∀ y ∈ l.dirty, y.isStamp ∧ ∀ r, y.touches r = true → r = row
  marked : φ = .marked →
    (∃ x ∈ l.written, x.touches row = true) ∨ ∃ y ∈ l.dirty, y.touches row = true
  began : φ.holds = true → l.began.isSome = true

section Sessions
variable {env : Env} {u : UUID} {row r : RowId} {φ φ' : DeletePhase} {l l' : Session} {w : World}

theorem DeleteOk.flush (h : DeleteOk row .marked l) :
    ∃ l', l.flush w = some l' ∧ DeleteOk row .marked l' ∧ l'.dirty = [] ∧
      ∀ r, Holds row .marked l' r → Holds row .marked l r := by
  have hflush : l.flush w = some ⟨some (l.clock w), [],
      l.written ++ l.dirty.map (Dirty.update (l.clock w))⟩ := by
    unfold Session.flush
    rw [flush_stamps fun y hy => (h.marks y hy).1]
    rfl
  refine ⟨_, hflush, ⟨by simp, by simp, by simp, ?_, by simp, fun _ => .inl ?_, fun _ => rfl⟩, rfl, ?_⟩
  · intro x hx
    rcases List.mem_append.mp hx with hx | hx
    · exact h.stamps x hx
    · obtain ⟨y, hy, rfl⟩ := List.mem_map.mp hx
      exact Dirty.isStamp_update (h.marks y hy).1 _
  · rcases h.marked rfl with ⟨x, hx, hrow⟩ | ⟨y, hy, hrow⟩
    · exact ⟨x, List.mem_append_left _ hx, hrow⟩
    · exact ⟨_, List.mem_append_right _ (List.mem_map_of_mem hy), by rwa [Dirty.touches_update]⟩
  · rintro r (⟨-, rfl⟩ | ⟨x, hx, hr⟩)
    · exact .inl ⟨rfl, rfl⟩
    · rcases List.mem_append.mp hx with hx | hx
      · exact .inr ⟨x, hx, hr⟩
      · obtain ⟨y, hy, rfl⟩ := List.mem_map.mp hx
        rw [Dirty.touches_update] at hr
        exact .inl ⟨rfl, (h.marks y hy).2 r hr⟩

/-- A request that has only read. -/
theorem DeleteOk.fresh (hφ : φ ≠ .broken ∧ φ ≠ .cascaded ∧ φ ≠ .marked) (hw : l.written = [])
    (hd : l.dirty = []) (hbegan : φ.holds = true → l.began.isSome = true) : DeleteOk row φ l where
  sound := hφ.1
  written _ := hw
  dirty _ := hd
  stamps := by simp [hw]
  marks := by simp [hd]
  marked h := absurd h hφ.2.2
  began := hbegan

/-- Only the commit of a DELETE deletes. -/
theorem DeleteMove.not_deleted {c : Cmd} {s : State} (hm : DeleteMove u row φ c s φ')
    (hc : c ≠ .commit) : φ' ≠ .deleted := by
  rintro rfl
  cases hm with
  | commit hl => exact hc rfl
  | clock hφ => rcases hφ with hφ | hφ <;> cases hφ
  | rollback hφ => rcases hφ with hφ | hφ <;> cases hφ

/-- A commit comes when the object has been marked. -/
theorem DeleteMove.of_commit (hm : DeleteMove u row φ .commit (l, w) φ') :
    φ = .marked ∧ ((∃ l', l.flush w = some l') ∧ φ' = .deleted ∨ l.flush w = none) := by
  generalize hcmd : Cmd.commit = c at hm
  generalize hs : (l, w) = s at hm
  cases hm with
  | find hfinds | miss => cases row <;> cases hcmd
  | @mark _ y => cases y <;> cases hcmd
  | cascade | clock | flush | rollback => cases hcmd
  | commit hl =>
    cases hs
    exact ⟨rfl, .inl ⟨⟨_, hl⟩, rfl⟩⟩
  | refused hl =>
    cases hs
    exact ⟨rfl, .inr hl⟩

theorem exec_select (row : RowId) :
    (exec env (row.select u) (l, w)).2.1 = l.begin w := by
  cases row <;> rfl

theorem exec_assign (y : Dirty) :
    (exec env y.assign (l, w)).2.1 = { l with dirty := l.dirty ++ [y] } := by
  cases y <;> rfl

/-- What a statement of a DELETE does to its session, with the rows it holds then. -/
theorem DeleteOk.move (env : Env) (h : DeleteOk row φ l) {c : Cmd} (hm : DeleteMove u row φ c (l, w) φ')
    (hc : c ≠ .commit) :
    DeleteOk row φ' (exec env c (l, w)).2.1 ∧
      ∀ r, Holds row φ' (exec env c (l, w)).2.1 r →
        Holds row φ l r ∨ (r ∈ c.finds l w ∧ l.written = []) := by
  generalize hs : (l, w) = s at hm
  cases hm with
  | find hfinds =>
    cases hs
    have hw := h.written (by simp)
    rw [exec_select]
    refine ⟨.fresh (by simp) hw (h.dirty (by simp)) fun _ => rfl, ?_⟩
    rintro r (⟨-, rfl⟩ | ⟨x, hx, -⟩)
    · exact .inr ⟨by simp [hfinds], hw⟩
    · rw [show (l.begin w).written = l.written from rfl, hw] at hx
      cases hx
  | miss =>
    cases hs
    have hw := h.written (by simp)
    rw [exec_select]
    refine ⟨.fresh (by simp) hw (h.dirty (by simp)) (by simp [DeletePhase.holds]), ?_⟩
    rintro r (⟨hφ, -⟩ | ⟨x, hx, -⟩)
    · cases hφ
    · rw [show (l.begin w).written = l.written from rfl, hw] at hx
      cases hx
  | cascade hrow =>
    cases hs
    have hw := h.written (by simp)
    have hd := h.dirty (by simp)
    simp only [exec, Session.write, Session.begin, hw, List.nil_append]
    refine ⟨⟨by simp, by simp, fun _ => hd, by simp [Write.isStamp], by simp [hd], by simp,
      fun _ => rfl⟩, ?_⟩
    rintro r (⟨-, rfl⟩ | ⟨x, hx, hr⟩)
    · exact .inl (.inl ⟨rfl, rfl⟩)
    · obtain rfl := List.mem_singleton.mp hx
      right
      cases r with
      | project id => cases hr
      | task id =>
        simp only [Write.touches, decide_eq_true_eq, List.mem_map] at hr
        obtain ⟨t, ht, rfl⟩ := hr
        exact ⟨List.mem_map.mpr ⟨t, ht, rfl⟩, trivial⟩
  | clock hφ =>
    cases hs
    exact ⟨h, fun r hr => .inl hr⟩
  | @mark _ y _ hφ hy hrow =>
    cases hs
    have hd : l.dirty = [] := h.dirty (by rcases hφ with rfl | rfl <;> simp)
    have hholds : φ.holds = true := by rcases hφ with rfl | rfl <;> rfl
    rw [exec_assign]
    refine ⟨⟨by simp, by simp, by simp, h.stamps, ?_, fun _ => .inr ⟨y, by simp, (hrow row).mpr rfl⟩,
      fun _ => h.began hholds⟩, ?_⟩
    · intro z hz
      simp only [hd, List.nil_append, List.mem_singleton] at hz
      subst hz
      exact ⟨hy, fun r hr => (hrow r).mp hr⟩
    · rintro r (⟨-, rfl⟩ | ⟨x, hx, hr⟩)
      · exact .inl (.inl ⟨hholds, rfl⟩)
      · exact .inl (.inr ⟨x, hx, hr⟩)
  | flush hl =>
    cases hs
    obtain ⟨l', hl', hok, -, hholds⟩ := h.flush (w := w)
    simp only [exec, hl']
    exact ⟨hok, fun r hr => .inl (hholds r hr)⟩
  | commit hl => exact absurd rfl hc
  | refused hl =>
    cases hs
    obtain ⟨l', hl', -⟩ := h.flush (w := w)
    rw [hl'] at hl
    cases hl
  | rollback hφ =>
    cases hs
    rcases hφ with rfl | rfl
    · refine ⟨.fresh (by simp) rfl rfl (by simp [DeletePhase.holds]), ?_⟩
      rintro r (⟨hφ, -⟩ | ⟨x, hx, -⟩)
      · cases hφ
      · cases hx
    · exact absurd rfl h.sound

end Sessions

/-! ## Every order of the statements -/

/-- A stamp stays what it is. -/
def StampsStay (w w' : World) : Prop :=
  ∀ r n, w.deletedAt r = some (some n) → w'.deletedAt r = some (some n)

section Runs
variable {ι : Type} {env : Env} {deletes : ι → UUID × RowId} {φ : ι → DeletePhase} {c : Threads ι}

def Cmd.isRollback : Cmd → Bool
  | .rollback => true
  | _ => false

/-- A request that has found the row, or stamped it, and has not committed. -/
def Holding (deletes : ι → UUID × RowId) (c : Threads ι) (k : ι) (r : RowId) : Prop :=
  ((deletes k).2 = r ∧ (c.threads k).locals.began.isSome = true ∧
    (c.next k).any Cmd.isRollback = false) ∨
  ∃ x ∈ (c.threads k).locals.written, x.touches r = true

instance (c : Threads ι) (k : ι) (r : RowId) : Decidable (Holding deletes c k r) :=
  inferInstanceAs (Decidable (_ ∨ _))

/-- No statement finds a row active that another request has found and not yet deleted. -/
def FindsFree (deletes : ι → UUID × RowId) (c : Threads ι) : Act ι Nat → Prop
  | .drift _ => True
  | .step i => ∀ cmd ∈ c.next i, ∀ r ∈ cmd.finds (c.threads i).locals c.world,
      ∀ k, Holding deletes c k r → k = i

instance [Fintype ι] [DecidableEq ι] (c : Threads ι) :
    (a : Act ι Nat) → Decidable (FindsFree deletes c a)
  | .drift _ => instDecidableTrue
  | .step i => inferInstanceAs (Decidable (∀ cmd ∈ c.next i,
      ∀ r ∈ cmd.finds (c.threads i).locals c.world, ∀ k, Holding deletes c k r → k = i))

structure DeletesOk (deletes : ι → UUID × RowId) (φ : ι → DeletePhase) (c : Threads ι) : Prop where
  projectIds : Keyed Project.id c.world.projects
  taskIds : Keyed Task.id c.world.tasks
  sessions : ∀ i, DeleteOk (deletes i).2 (φ i) (c.threads i).locals
  /-- A row that is held is active. -/
  active : ∀ i r, Holds (deletes i).2 (φ i) (c.threads i).locals r →
    c.world.deletedAt r = some none
  /-- One request at a time holds a row. -/
  sole : ∀ i k r, Holds (deletes i).2 (φ i) (c.threads i).locals r →
    Holds (deletes k).2 (φ k) (c.threads k).locals r → i = k
  gone : ∀ i, φ i = .deleted → ∃ n, c.world.deletedAt (deletes i).2 = some (some n)
  once : ∀ i k, φ i = .deleted → φ k = .deleted → (deletes i).2 = (deletes k).2 → i = k

theorem DeletesOk.start {w : World} (hvalid : w.Valid) :
    DeletesOk deletes (fun _ => .start) (deletesBeside w deletes) where
  projectIds := hvalid.projectIds
  taskIds := hvalid.taskIds
  sessions _ := .fresh (by simp) rfl rfl (by simp [DeletePhase.holds])
  active _ r h := by rcases h with ⟨h, -⟩ | ⟨x, hx, -⟩ <;> contradiction
  sole _ _ r h := by rcases h with ⟨h, -⟩ | ⟨x, hx, -⟩ <;> contradiction
  gone _ h := by cases h
  once _ _ h := by cases h

/-- What a statement of a clean session finds is active. -/
theorem active_of_finds {w : World} {l : Session} {cmd : Cmd} {r : RowId}
    (hprojects : Keyed Project.id w.projects) (htasks : Keyed Task.id w.tasks)
    (hl : l.written = []) (hr : r ∈ cmd.finds l w) : w.deletedAt r = some none := by
  have hp : l.projects w = w.projects := projects_of_clean hl
  have ht : l.tasks w = w.tasks := by
    unfold Session.tasks
    rw [hl]
    rfl
  have htask : ∀ t ∈ w.tasks, t.deletedAt = none → w.deletedAt (.task t.id) = some none := by
    intro t ht hactive
    rw [deletedAt_task htasks ht, hactive]
  cases cmd with
  | selectTask id owner =>
    simp only [Cmd.finds, hp, ht] at hr
    split at hr
    · rename_i hsome
      obtain ⟨t, hfound⟩ := Option.isSome_iff_exists.mp hsome
      obtain ⟨hmem, hactive, hid, -⟩ := task?_spec (w := w) hfound
      obtain rfl := List.mem_singleton.mp hr
      exact hid ▸ htask t hmem hactive
    · cases hr
  | selectProject id owner =>
    simp only [Cmd.finds, hp] at hr
    split at hr
    · rename_i hsome
      obtain ⟨p, hfound⟩ := Option.isSome_iff_exists.mp hsome
      obtain ⟨hmem, hactive, -, rfl⟩ := project?_spec (w := w) hfound
      obtain rfl := List.mem_singleton.mp hr
      rw [deletedAt_project hprojects hmem, hactive]
    · cases hr
  | softDeleteByProject projectId =>
    simp only [Cmd.finds, ht] at hr
    obtain ⟨t, hmem, rfl⟩ := List.mem_map.mp hr
    obtain ⟨htmem, hactive⟩ := mem_active.mp (List.mem_of_mem_filter hmem)
    exact htask t htmem hactive
  | _ => cases hr

/-- A request that holds a row by its phase holds it as far as its session and its next
command show. -/
theorem holding_of_holds {k : ι} {r : RowId}
    (hobey : Obeys (exec env) (DeleteMove (deletes k).1 (deletes k).2) (DeleteFinal (deletes k).2)
      (φ k) (c.threads k).prog)
    (h : DeleteOk (deletes k).2 (φ k) (c.threads k).locals)
    (hr : Holds (deletes k).2 (φ k) (c.threads k).locals r) : Holding deletes c k r := by
  rcases hr with ⟨hφ, rfl⟩ | hx
  · refine .inl ⟨rfl, h.began hφ, ?_⟩
    cases hnext : c.next k with
    | none => rfl
    | some cmd =>
      obtain ⟨φ', hm⟩ := hobey.move_of_next hnext (.empty, c.world)
      generalize φ k = ψ at hφ hm
      cases hm with
      | rollback hψ => rcases hψ with rfl | rfl <;> cases hφ
      | find hfinds | miss => cases hφ
      | @mark _ y => cases y <;> rfl
      | refused hl => cases hl
      | cascade | clock | flush | commit => rfl
  · exact .inr hx

/-- Stamps keep the primary keys. -/
theorem keyed_stamps {writes : List Write} {w : World} (hwrites : ∀ x ∈ writes, x.isStamp)
    (hprojects : Keyed Project.id w.projects) (htasks : Keyed Task.id w.tasks) :
    Keyed Project.id (writes.foldl World.write w).projects ∧
      Keyed Task.id (writes.foldl World.write w).tasks := by
  induction writes generalizing w with
  | nil => exact ⟨hprojects, htasks⟩
  | cons x xs ih =>
    obtain ⟨hx, hxs⟩ := List.forall_mem_cons.mp hwrites
    rw [List.foldl_cons]
    cases x with
    | insertProject row => cases hx
    | insertTask row => cases hx
    | updateProject id fields at_ =>
      refine ih hxs (hprojects.map fun p _ => ?_) htasks
      split
      · exact Project.setattrs_id p fields
      · rfl
    | updateTasks ids fields at_ =>
      refine ih hxs hprojects (htasks.map fun t _ => ?_)
      split
      · exact Task.setattrs_id t fields
      · rfl

variable [DecidableEq ι] {i : ι} {cmd : Cmd} {k : Except Exc cmd.Val → WorkM Reply}
  {φ' : DeletePhase}

/-- A statement that is not a commit. -/
theorem DeletesOk.statement (h : DeletesOk deletes φ c)
    (hobey : AllObey (machine env) (fun i => DeleteMove (deletes i).1 (deletes i).2)
      (fun i => DeleteFinal (deletes i).2) φ c)
    (hp : (c.threads i).prog = .call cmd k)
    (hm : DeleteMove (deletes i).1 (deletes i).2 (φ i) cmd ((c.threads i).locals, c.world) φ')
    (hfree : FindsFree deletes c (.step i)) (hc : cmd ≠ .commit) :
    DeletesOk deletes (Function.update φ i φ') (c.issue (machine env) i cmd k) := by
  obtain ⟨hok, hholds⟩ := DeleteOk.move env (h.sessions i) hm hc
  have hworld : (c.issue (machine env) i cmd k).world = c.world := exec_world hc
  have hphase : φ' ≠ .deleted := hm.not_deleted hc
  -- a row that thread `a` holds now, it held before, or `i` has just found it
  have hbefore : ∀ a r, Holds (deletes a).2 (Function.update φ i φ' a)
      ((c.issue (machine env) i cmd k).threads a).locals r →
      Holds (deletes a).2 (φ a) (c.threads a).locals r ∨
        (a = i ∧ r ∈ cmd.finds (c.threads i).locals c.world ∧ (c.threads i).locals.written = []) :=
    fun a r => forall_issue (m := machine env) (P := fun a ψ l => Holds (deletes a).2 ψ l r →
      Holds (deletes a).2 (φ a) (c.threads a).locals r ∨
        (a = i ∧ r ∈ cmd.finds (c.threads i).locals c.world ∧ (c.threads i).locals.written = []))
      (fun hr => (hholds r hr).imp_right fun hf => ⟨rfl, hf⟩) (fun _ _ hr => .inl hr) a
  have hsole : ∀ a r, r ∈ cmd.finds (c.threads i).locals c.world →
      Holds (deletes a).2 (φ a) (c.threads a).locals r → a = i := by
    intro a r hr ha
    have hnext : cmd ∈ c.next i := by simp [Config.next, hp]
    exact hfree cmd hnext r hr a (holding_of_holds (hobey a) (h.sessions a) ha)
  have hgone : ∀ a, Function.update φ i φ' a = .deleted → φ a = .deleted :=
    before_update (P := fun φ : DeletePhase => φ = .deleted) fun hφ' => absurd hφ' hphase
  constructor
  · rw [hworld]
    exact h.projectIds
  · rw [hworld]
    exact h.taskIds
  · exact forall_issue (P := fun a ψ l => DeleteOk (deletes a).2 ψ l) hok fun a _ => h.sessions a
  · intro a r ha
    rw [hworld]
    rcases hbefore a r ha with ha | ⟨-, hr, hclean⟩
    · exact h.active a r ha
    · exact active_of_finds h.projectIds h.taskIds hclean hr
  · intro a b r ha hb
    rcases hbefore a r ha with ha' | ⟨hai, har, -⟩
    · rcases hbefore b r hb with hb' | ⟨hbi, hbr, -⟩
      · exact h.sole a b r ha' hb'
      · exact (hsole a r hbr ha').trans hbi.symm
    · rcases hbefore b r hb with hb' | ⟨hbi, -, -⟩
      · exact hai.trans (hsole b r har hb').symm
      · exact hai.trans hbi.symm
  · intro a ha
    rw [hworld]
    exact h.gone a (hgone a ha)
  · exact fun a b ha hb => h.once a b (hgone a ha) (hgone b hb)

/-- A commit stamps the rows that the request holds, and no other. -/
theorem DeletesOk.commit (h : DeletesOk deletes φ c)
    (hm : DeleteMove (deletes i).1 (deletes i).2 (φ i) .commit ((c.threads i).locals, c.world) φ')
    (k : Except Exc Unit → WorkM Reply) :
    DeletesOk deletes (Function.update φ i φ') (c.issue (machine env) i .commit k) ∧
      StampsStay c.world (c.issue (machine env) i .commit k).world := by
  obtain ⟨hφ, hend⟩ := hm.of_commit
  have hi := h.sessions i
  rw [hφ] at hi
  obtain ⟨l', hl', hok, hdirty, hholds⟩ := hi.flush (w := c.world)
  rcases hend with ⟨-, rfl⟩ | hnone
  swap
  · rw [hl'] at hnone
    cases hnone
  have hworld : (c.issue (machine env) i .commit k).world = l'.after c.world := by
    rw [world_issue]
    simp only [exec, hl']
    rfl
  have hlocals : (exec env .commit ((c.threads i).locals, c.world)).2.1 = .empty := by
    simp only [exec, hl']
  have hrow : Holds (deletes i).2 (φ i) (c.threads i).locals (deletes i).2 :=
    .inl ⟨by rw [hφ]; rfl, rfl⟩
  have htouched : ∀ r, (∃ x ∈ l'.written, x.touches r = true) →
      Holds (deletes i).2 (φ i) (c.threads i).locals r := by
    intro r hr
    rw [hφ]
    exact hholds r (.inr hr)
  have hkept : ∀ r, ¬ Holds (deletes i).2 (φ i) (c.threads i).locals r →
      (l'.after c.world).deletedAt r = c.world.deletedAt r := by
    intro r hr
    refine deletedAt_untouched hok.stamps fun x hx => ?_
    rw [← Bool.not_eq_true]
    exact fun hxr => hr (htouched r ⟨x, hx, hxr⟩)
  have hstay : StampsStay c.world (l'.after c.world) := by
    intro r n hr
    rw [hkept r, hr]
    intro hheld
    rw [h.active i r hheld] at hr
    cases hr
  have hdeleted : ∃ n, (l'.after c.world).deletedAt (deletes i).2 = some (some n) := by
    refine deletedAt_touched hok.stamps ?_ ⟨none, h.active i _ hrow⟩
    rcases hok.marked rfl with hx | ⟨y, hy, -⟩
    · exact hx
    · rw [hdirty] at hy
      cases hy
  have hkeyed := keyed_stamps hok.stamps h.projectIds h.taskIds
  rw [← after_eq_foldl] at hkeyed
  have hbefore : ∀ a r, Holds (deletes a).2 (Function.update φ i .deleted a)
      ((c.issue (machine env) i .commit k).threads a).locals r →
      a ≠ i ∧ Holds (deletes a).2 (φ a) (c.threads a).locals r := by
    intro a r
    refine forall_issue (m := machine env) (P := fun a ψ l => Holds (deletes a).2 ψ l r →
      a ≠ i ∧ Holds (deletes a).2 (φ a) (c.threads a).locals r) ?_ (fun _ ha hr => ⟨ha, hr⟩) a
    change Holds _ _ (exec env .commit ((c.threads i).locals, c.world)).2.1 r → _
    rw [hlocals]
    rintro (⟨hf, -⟩ | ⟨x, hx, -⟩)
    · cases hf
    · cases hx
  -- a row that is gone has been stamped by another request than `i`
  have hother : ∀ a, φ a = .deleted → (deletes a).2 ≠ (deletes i).2 := by
    intro a ha heq
    obtain ⟨n, hn⟩ := h.gone a ha
    rw [heq, h.active i _ hrow] at hn
    cases hn
  rw [hworld]
  refine ⟨?_, hstay⟩
  constructor
  · rw [hworld]
    exact hkeyed.1
  · rw [hworld]
    exact hkeyed.2
  · refine forall_issue (P := fun a ψ l => DeleteOk (deletes a).2 ψ l) ?_ fun a _ => h.sessions a
    change DeleteOk _ _ (exec env .commit ((c.threads i).locals, c.world)).2.1
    rw [hlocals]
    exact .fresh (by simp) rfl rfl (by simp [DeletePhase.holds])
  · intro a r ha
    obtain ⟨hne, ha⟩ := hbefore a r ha
    rw [hworld, hkept r fun hir => hne (h.sole a i r ha hir)]
    exact h.active a r ha
  · intro a b r ha hb
    exact h.sole a b r (hbefore a r ha).2 (hbefore b r hb).2
  · intro a ha
    rw [hworld]
    by_cases hai : a = i
    · rw [hai]
      exact hdeleted
    · rw [Function.update_of_ne hai] at ha
      obtain ⟨n, hn⟩ := h.gone a ha
      exact ⟨n, hstay _ n hn⟩
  · intro a b ha hb hab
    by_cases hai : a = i
    · by_cases hbi : b = i
      · rw [hai, hbi]
      · rw [Function.update_of_ne hbi] at hb
        exact absurd (hai ▸ hab.symm) (hother b hb)
    · rw [Function.update_of_ne hai] at ha
      by_cases hbi : b = i
      · exact absurd (hbi ▸ hab) (hother a ha)
      · rw [Function.update_of_ne hbi] at hb
        exact h.once a b ha hb hab

end Runs

/-- At most one DELETE of a row succeeds, and the others find nothing. -/
structure DeletedOnce {ι : Type} (deletes : ι → UUID × RowId) (c : Threads ι) : Prop where
  sole : ∀ i k, (deletes i).2 = (deletes k).2 → c.outcome i = some (.ok .noContent) →
    c.outcome k = some (.ok .noContent) → i = k
  others : ∀ i o, c.outcome i = some o → o = .ok .noContent ∨ o = .error (deletes i).2.notFound

section Runs
variable {ι : Type} [DecidableEq ι] {env : Env} {deletes : ι → UUID × RowId} {φ : ι → DeletePhase}
  {c : Threads ι}

theorem DeletesOk.step {i : ι} {cmd : Cmd} {k : Except Exc cmd.Val → WorkM Reply} {φ' : DeletePhase}
    (h : DeletesOk deletes φ c)
    (hobey : AllObey (machine env) (fun i => DeleteMove (deletes i).1 (deletes i).2)
      (fun i => DeleteFinal (deletes i).2) φ c)
    (hp : (c.threads i).prog = .call cmd k)
    (hm : DeleteMove (deletes i).1 (deletes i).2 (φ i) cmd ((c.threads i).locals, c.world) φ')
    (hfree : FindsFree deletes c (.step i)) :
    DeletesOk deletes (Function.update φ i φ') (c.issue (machine env) i cmd k) ∧
      StampsStay c.world (c.issue (machine env) i cmd k).world := by
  by_cases hc : cmd = .commit
  · subst hc
    exact h.commit hm k
  · refine ⟨h.statement hobey hp hm hfree hc, ?_⟩
    have hworld : (c.issue (machine env) i cmd k).world = c.world := exec_world hc
    rw [hworld]
    exact fun r n hr => hr

theorem DeletesOk.drift (h : DeletesOk deletes φ c) (n : Nat) :
    DeletesOk deletes φ (c.step (machine env) (.drift n)) where
  projectIds := h.projectIds
  taskIds := h.taskIds
  sessions := h.sessions
  active := h.active
  sole := h.sole
  gone := h.gone
  once := h.once

/-- From a state that the invariant holds of, stamps stay along the rest of the run. -/
theorem DeletesOk.run (h : DeletesOk deletes φ c)
    (hobey : AllObey (machine env) (fun i => DeleteMove (deletes i).1 (deletes i).2)
      (fun i => DeleteFinal (deletes i).2) φ c)
    {schedule : List (Act ι Nat)} (hfree : c.Along (machine env) (FindsFree deletes) schedule) :
    ∃ φ', AllObey (machine env) (fun i => DeleteMove (deletes i).1 (deletes i).2)
        (fun i => DeleteFinal (deletes i).2) φ' (c.run (machine env) schedule) ∧
      DeletesOk deletes φ' (c.run (machine env) schedule) ∧
      StampsStay c.world (c.run (machine env) schedule).world := by
  obtain ⟨φ', hobey', ⟨hok, hstay⟩, -⟩ := run_invariant
    (J := fun φ c' => DeletesOk deletes φ c' ∧ StampsStay c.world c'.world)
    (fun φ c n _ hJ _ => ⟨hJ.1.drift n, hJ.2⟩)
    (fun φ c i cmd k φ' hobey hJ hp hm hmeets => by
      obtain ⟨hok, hstay⟩ := hJ.1.step hobey hp hm hmeets
      exact ⟨hok, fun r n hr => hstay r n (hJ.2 r n hr)⟩)
    hobey ⟨h, fun r n hr => hr⟩ hfree
  exact ⟨φ', hobey', hok, hstay⟩

omit [DecidableEq ι] in
theorem DeletesOk.deletedOnce (h : DeletesOk deletes φ c)
    (hobey : AllObey (machine env) (fun i => DeleteMove (deletes i).1 (deletes i).2)
      (fun i => DeleteFinal (deletes i).2) φ c) : DeletedOnce deletes c where
  sole i k hik hi hk := by
    have hphase : ∀ a, c.outcome a = some (.ok .noContent) → φ a = .deleted := by
      intro a ha
      have hfinal := hobey.final ha
      generalize hψ : φ a = ψ at hfinal
      cases hfinal with
      | deleted => rfl
      | broken => exact absurd hψ (h.sessions a).sound
    exact h.once i k (hphase i hi) (hphase k hk) hik
  others i o ho := by
    have hfinal := hobey.final ho
    generalize hψ : φ i = ψ at hfinal
    cases hfinal with
    | deleted => exact .inl rfl
    | lost => exact .inr rfl
    | broken => exact absurd hψ (h.sessions i).sound

end Runs

/-- For any number of DELETE requests of tasks and projects, and every order of their
statements: of each row at most one DELETE succeeds, the others raise the not-found error,
and once the `deleted_at` of a row is committed it stays what it is, provided that no
statement finds a row active that another request has found and not yet committed. -/
theorem deleted_once {ι : Type} [DecidableEq ι] (env : Env) (w : World) (hvalid : w.Valid)
    (deletes : ι → UUID × RowId) (before after : List (Act ι Nat))
    (hfree : (deletesBeside w deletes).Along (machine env) (FindsFree deletes) (before ++ after)) :
    let c := (deletesBeside w deletes).run (machine env) before
    let c' := c.run (machine env) after
    DeletedOnce deletes c' ∧ StampsStay c.world c'.world := by
  intro c c'
  obtain ⟨hbefore, hafter⟩ := Config.along_append.mp hfree
  obtain ⟨φ, hobey, hok, -⟩ := (DeletesOk.start hvalid).run (deletes_obey env w deletes) hbefore
  obtain ⟨φ', hobey', hok', hstay⟩ := hok.run hobey hafter
  exact ⟨hok'.deletedOnce hobey', hstay⟩

/-! ### Two deletes of one task -/

def twoDeletes : Fin 2 → UUID × RowId :=
  fun _ => (plainUuid .zero .zero, .task (plainUuid .two .zero))

/-- One after the other, five seconds apart. -/
theorem deleted_once_serial :
    let c := (deletesBeside oneTask twoDeletes).run (machine plainEnv)
      (List.replicate 5 (.step 0))
    let c' := c.run (machine plainEnv) ([.drift 5] ++ List.replicate 2 (.step 1))
    DeletedOnce twoDeletes c' ∧ StampsStay c.world c'.world :=
  deleted_once plainEnv oneTask (by decide +kernel) twoDeletes _ _ (by decide +kernel)

/-- Both find the task active: both succeed, and the second commit moves its `deleted_at`. -/
theorem deleted_twice :
    let c := (deletesBeside oneTask twoDeletes).run (machine plainEnv)
      ([.step 1] ++ List.replicate 5 (.step 0))
    let c' := c.run (machine plainEnv) ([.drift 5] ++ List.replicate 4 (.step 1))
    ¬ DeletedOnce twoDeletes c' ∧ ¬ StampsStay c.world c'.world := by
  intro c c'
  constructor
  · intro h
    have hsame := h.sole 0 1 rfl (by decide +kernel) (by decide +kernel)
    cases hsame
  · intro h
    have hfirst : c.world.deletedAt (.task (plainUuid .two .zero)) = some (some 100) := by
      decide +kernel
    have hsecond : c'.world.deletedAt (.task (plainUuid .two .zero)) = some (some 105) := by
      decide +kernel
    rw [h _ _ hfirst] at hsecond
    cases hsecond

end TaskMgtApp.Work
