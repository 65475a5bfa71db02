import TaskMgtApp.Lib.Record
import TaskMgtApp.Work.Service

/-!
# One project or task request at a time

Each endpoint, run to its end with nothing beside it, as one equation: which
lookup decides the outcome, and what is written.
-/
namespace TaskMgtApp.Work

open TaskMgtApp.Common
open TaskMgtApp.Lib.Program TaskMgtApp.Lib.Program.Prog
open TaskMgtApp.Lib.Listing

/-- The active tasks of a project. -/
def tasksUnder (tasks : List Task) (projectId : UUID) : List Task :=
  (active tasks).filter fun t => t.projectId == projectId

namespace World

/-- What `get_by_id_for_owner` finds. -/
def project? (w : World) (id owner : UUID) : Option Project :=
  (ownedProjects w.projects owner).find? fun p => p.id == id

def task? (w : World) (id owner : UUID) : Option Task :=
  (ownedTasks w.projects w.tasks owner).find? fun t => t.id == id

/-- The rows `list_for_owner` selects, before it pages. -/
def tasksFor (env : Env) (w : World) (owner : UUID) (filters : TaskFilters) : List Task :=
  (ownedTasks w.projects w.tasks owner).filter (filters.admits env)

/-- The UPDATE of one project, unless a column refuses its value. -/
def patchProject (w : World) (p : Project) (fields : List ProjectAttr) : Option World :=
  let changed := Lib.Record.changed Project.setattr p fields
  if changed = [] then some w
  else if changed.all ProjectAttr.storable then
    some { w with projects := Write.onProjects w.projects (.updateProject p.id changed w.now) }
  else none

def patchTask (w : World) (t : Task) (fields : List TaskAttr) : Option World :=
  let changed := Lib.Record.changed Task.setattr t fields
  if changed = [] then some w
  else if changed.all (TaskAttr.storable w.projects) then
    some { w with tasks := Write.onTasks w.tasks (.updateTasks [t.id] changed w.now) }
  else none

/-- The ids of the tasks that the cascade stamps. -/
def cascadeIds (w : World) (projectId : UUID) : List UUID := (tasksUnder w.tasks projectId).map Task.id

/-- A project and its active tasks are stamped. -/
def dropProject (w : World) (p : Project) : World where
  now := w.now
  projects := Write.onProjects w.projects (.updateProject p.id [.deletedAt (some w.now)] w.now)
  tasks := Write.onTasks w.tasks (.updateTasks (w.cascadeIds p.id) [.deletedAt (some w.now)] w.now)

def dropTask (w : World) (t : Task) : World :=
  { w with tasks := Write.onTasks w.tasks (.updateTasks [t.id] [.deletedAt (some w.now)] w.now) }

end World

section Lookups
variable {w : World} {id owner : UUID}

theorem mem_active {M : Type} [Entity M] {rows : List M} {m : M} :
    m ∈ active rows ↔ m ∈ rows ∧ Entity.deletedAt m = none := by
  simp [active]

theorem mem_ownedProjects {projects : List Project} {p : Project} :
    p ∈ ownedProjects projects owner ↔
      p ∈ projects ∧ p.deletedAt = none ∧ p.ownerId = owner := by
  simp [ownedProjects, mem_active, Entity.deletedAt, and_assoc]

theorem mem_ownedTasks {projects : List Project} {tasks : List Task} {t : Task} :
    t ∈ ownedTasks projects tasks owner ↔ t ∈ tasks ∧ t.deletedAt = none ∧
      ∃ p ∈ ownedProjects projects owner, p.id = t.projectId := by
  simp [ownedTasks, mem_active, Entity.deletedAt, and_assoc]

theorem mem_tasksUnder {tasks : List Task} {t : Task} {projectId : UUID} :
    t ∈ tasksUnder tasks projectId ↔ t ∈ tasks ∧ t.deletedAt = none ∧ t.projectId = projectId := by
  simp [tasksUnder, mem_active, Entity.deletedAt, and_assoc]

theorem project?_spec {p : Project} (h : w.project? id owner = some p) :
    p ∈ w.projects ∧ p.deletedAt = none ∧ p.ownerId = owner ∧ p.id = id := by
  obtain ⟨hp, hd, ho⟩ := mem_ownedProjects.mp (List.mem_of_find?_eq_some h)
  exact ⟨hp, hd, ho, by simpa using List.find?_some h⟩

theorem task?_spec {t : Task} (h : w.task? id owner = some t) :
    t ∈ w.tasks ∧ t.deletedAt = none ∧ t.id = id ∧
      ∃ p ∈ ownedProjects w.projects owner, p.id = t.projectId := by
  obtain ⟨ht, hd, hp⟩ := mem_ownedTasks.mp (List.mem_of_find?_eq_some h)
  exact ⟨ht, hd, by simpa using List.find?_some h, hp⟩

/-! No request assigns the id or the creation time of an object. -/

@[simp] theorem Project.setattrs_id (p : Project) (fields : List ProjectAttr) :
    (p.setattrs fields).id = p.id := by
  induction fields generalizing p with
  | nil => rfl
  | cons a as ih => exact (ih (p.setattr a)).trans (by cases a <;> rfl)

@[simp] theorem Task.setattrs_id (t : Task) (fields : List TaskAttr) :
    (t.setattrs fields).id = t.id := by
  induction fields generalizing t with
  | nil => rfl
  | cons a as ih => exact (ih (t.setattr a)).trans (by cases a <;> rfl)

@[simp] theorem newProject_id (now : Nat) (id ownerId : UUID) (name description : Option String) :
    (newProject now id ownerId name description).id = id := rfl

@[simp] theorem newTask_id (now : Nat) (id projectId : UUID) (fields : List TaskAttr) :
    (newTask now id projectId fields).id = id := Task.setattrs_id ..

theorem acceptsProject_fresh {rows : List Project} {p : Project} (h : acceptsProject rows p = true) :
    ∀ row ∈ rows, row.id ≠ p.id := by
  simp only [acceptsProject, Bool.and_eq_true, List.all_eq_true, decide_eq_true_eq] at h
  exact h.1

theorem acceptsTask_fresh {projects : List Project} {rows : List Task} {t : Task}
    (h : acceptsTask projects rows t = true) : ∀ row ∈ rows, row.id ≠ t.id := by
  simp only [acceptsTask, Bool.and_eq_true, List.all_eq_true, decide_eq_true_eq] at h
  exact h.1

/-- The refresh of a new row finds it behind the rows with other ids. -/
theorem find?_append_fresh {α : Type} {rows : List α} {row : α} {f : α → UUID} {id : UUID}
    (h : ∀ x ∈ rows, f x ≠ id) (hrow : f row = id) :
    (rows ++ [row]).find? (fun x => f x == id) = some row := by
  rw [List.find?_append, List.find?_eq_none.mpr fun x hx => by simpa using h x hx]
  simp [hrow]

end Lookups

/-! ## Runs -/

section Runs
variable (env : Env) (l : Session) (w : World)

theorem run_getDb {α : Type} (body : WorkM α) :
    (getDb body).run (exec env) (l, w) =
      match body.run (exec env) (l, w) with
      | (.ok a, l', w') =>
        match l'.flush w' with
        | some l'' => (.ok a, .empty, { w' with projects := l''.projects w', tasks := l''.tasks w' })
        | none => (.error .dbError, .empty, w')
      | (.error e, _, w') => (.error e, .empty, w') := by
  simp only [getDb, run_catch, run_bind]
  rcases body.run (exec env) (l, w) with ⟨r | r, l', w'⟩
  · simp [exec]
  · cases h : l'.flush w' <;> simp [exec, h]

@[simp] theorem projects_empty : Session.empty.projects w = w.projects := rfl
@[simp] theorem tasks_empty : Session.empty.tasks w = w.tasks := rfl
@[simp] theorem clock_empty : Session.empty.clock w = w.now := rfl
@[simp] theorem projects_begin : (l.begin w).projects w = l.projects w := rfl
@[simp] theorem tasks_begin : (l.begin w).tasks w = l.tasks w := rfl
@[simp] theorem clock_begin : (l.begin w).clock w = l.clock w := rfl
@[simp] theorem projects_write (x : Write) :
    (l.write x).projects w = Write.onProjects (l.projects w) x := by
  simp [Session.projects, Session.write]
@[simp] theorem tasks_write (x : Write) : (l.write x).tasks w = Write.onTasks (l.tasks w) x := by
  simp [Session.tasks, Session.write]

/-- A session without assigned attributes has nothing to flush. -/
theorem flush_clean (h : l.dirty = []) : l.flush w = some (l.begin w) := by
  unfold Session.flush Session.begin
  rw [h]
  rfl

/-- `get_by_id_for_owner` with the 404 that the services raise. -/
theorem run_projectGet (id owner : UUID) :
    (ProjectService.get id owner).run (exec env) (l, w) =
      match (ownedProjects (l.projects w) owner).find? fun p => p.id == id with
      | none => (.error (.projectNotFoundError "Project not found."), l.begin w, w)
      | some p => (.ok p, l.begin w, w) := by
  unfold ProjectService.get
  rw [run_bind]
  simp only [ProjectRepository.getByIdForOwner, execute, run_perform, exec]
  cases (ownedProjects (l.projects w) owner).find? fun p => p.id == id <;> rfl

theorem run_taskGet (id owner : UUID) :
    (TaskService.get id owner).run (exec env) (l, w) =
      match (ownedTasks (l.projects w) (l.tasks w) owner).find? fun t => t.id == id with
      | none => (.error (.taskNotFoundError "Task not found."), l.begin w, w)
      | some t => (.ok t, l.begin w, w) := by
  unfold TaskService.get
  rw [run_bind]
  simp only [TaskRepository.getByIdForOwner, execute, run_perform, exec]
  cases (ownedTasks (l.projects w) (l.tasks w) owner).find? fun t => t.id == id <;> rfl

/-- `add` of a project: the row as inserted, or the refusal of the table. -/
theorem run_projectAdd (id owner : UUID) (name description : Option String) :
    (ProjectRepository.add id owner name description).run (exec env) (l, w) =
      let row := newProject (l.clock w) id owner name description
      if acceptsProject (l.projects w) row then
        (.ok row, (l.begin w).write (.insertProject row), w)
      else (.error .dbError, l.begin w, w) := by
  unfold ProjectRepository.add
  simp only [run_bind, execute, run_perform, exec]
  by_cases haccepts : acceptsProject (l.projects w) (newProject (l.clock w) id owner name description)
  · have hfind := find?_append_fresh (acceptsProject_fresh haccepts) rfl
    rw [newProject_id] at hfind
    simp only [haccepts, if_true, projects_write, projects_begin, Write.onProjects, hfind]
    rfl
  · simp only [haccepts, Bool.false_eq_true, if_false]

theorem run_taskAdd (id projectId : UUID) (fields : List TaskAttr) :
    (TaskRepository.add id projectId fields).run (exec env) (l, w) =
      let row := newTask (l.clock w) id projectId fields
      if acceptsTask (l.projects w) (l.tasks w) row then
        (.ok row, (l.begin w).write (.insertTask row), w)
      else (.error .dbError, l.begin w, w) := by
  unfold TaskRepository.add
  simp only [run_bind, execute, run_perform, exec]
  by_cases haccepts : acceptsTask (l.projects w) (l.tasks w) (newTask (l.clock w) id projectId fields)
  · have hfind := find?_append_fresh (acceptsTask_fresh haccepts) rfl
    rw [newTask_id] at hfind
    simp only [haccepts, if_true, tasks_write, tasks_begin, Write.onTasks, hfind]
    rfl
  · simp only [haccepts, Bool.false_eq_true, if_false]

/-- What the serialization of a result makes of it. -/
def answer (reply : Option Reply) : Except Exc Reply := reply.elim (.error .responseValidationError) .ok

theorem run_respond (reply : Option Reply) :
    (respond reply).run (exec env) (l, w) = (answer reply, l, w) := by
  cases reply <;> rfl

/-- The tables after the commit, unless a constraint refuses an assigned value. -/
def Session.committed (l : Session) (w : World) : Option World :=
  (l.flush w).map fun l' => { w with projects := l'.projects w, tasks := l'.tasks w }

theorem serve_eq (u : UUID) (r : Request) :
    serve env w u r = match (r.endpoint u).run (exec env) (.empty, w) with
      | (.ok a, l', w') => match l'.committed w' with
        | some w'' => (.ok a, w'')
        | none => (.error .dbError, w')
      | (.error e, _, w') => (.error e, w') := by
  unfold serve Request.program Session.committed
  rw [run_getDb]
  rcases (r.endpoint u).run (exec env) (.empty, w) with ⟨r | r, l', w'⟩
  · rfl
  · dsimp only
    cases l'.flush w' <;> rfl

theorem committed_clean (h : l.dirty = []) :
    l.committed w = some { w with projects := l.projects w, tasks := l.tasks w } := by
  unfold Session.committed
  rw [flush_clean l w h]
  rfl

/-- Flushing a session with one assigned object. -/
theorem flush_one (began : Option Nat) (x : Dirty) (written : List Write) :
    (⟨began, [x], written⟩ : Session).flush w =
      Session.flushOne w ⟨some (began.getD w.now), [], written⟩ x := by
  unfold Session.flush
  simp only [List.foldlM_cons, List.foldlM_nil, Session.begin, Session.clock]
  cases Session.flushOne w ⟨some (began.getD w.now), [], written⟩ x <;> rfl

/-- `mark_deleted` of an active object is a change of one column. -/
theorem flushOne_delete {p : Project} (h : p.deletedAt = none) (n : Nat) :
    Session.flushOne w l (.project p [.deletedAt (some n)]) =
      some (l.write (.updateProject p.id [.deletedAt (some n)] (l.clock w))) := by
  have hne : p.setattr (.deletedAt (some n)) ≠ p := by
    intro heq
    have := congrArg Project.deletedAt heq
    simp [Project.setattr, h] at this
  simp [Session.flushOne, hne, ProjectAttr.storable]

theorem flushOne_deleteTask {t : Task} (h : t.deletedAt = none) (n : Nat) :
    Session.flushOne w l (.task t [.deletedAt (some n)]) =
      some (l.write (.updateTasks [t.id] [.deletedAt (some n)] (l.clock w))) := by
  have hne : t.setattr (.deletedAt (some n)) ≠ t := by
    intro heq
    have := congrArg Task.deletedAt heq
    simp [Task.setattr, h] at this
  simp [Session.flushOne, hne, TaskAttr.storable]

theorem committed_assignProject (p : Project) (fields : List ProjectAttr) :
    Session.committed { Session.empty.begin w with
      dirty := (Session.empty.begin w).dirty ++ [.project p fields] } w =
      w.patchProject p fields := by
  change Session.committed ⟨some w.now, [.project p fields], []⟩ w = _
  unfold Session.committed World.patchProject Lib.Record.changed
  rw [flush_one]
  simp only [Session.flushOne]
  split
  · rfl
  · split <;> rfl

theorem committed_assignTask (t : Task) (fields : List TaskAttr) :
    Session.committed { Session.empty.begin w with
      dirty := (Session.empty.begin w).dirty ++ [.task t fields] } w = w.patchTask t fields := by
  change Session.committed ⟨some w.now, [.task t fields], []⟩ w = _
  unfold Session.committed World.patchTask Lib.Record.changed
  rw [flush_one]
  simp only [Session.flushOne]
  split
  · rfl
  · have hp : ∀ began, Session.projects ⟨began, [], []⟩ w = w.projects := fun _ => rfl
    rw [hp]
    split <;> rfl

end Runs

/-! ## The endpoints -/

section Endpoints
variable (env : Env) (w : World) (u : UUID)

theorem serve_createProject (payload : ProjectCreate) (uuid4 : UUID) :
    serve env w u (.createProject payload uuid4) =
      let row := newProject w.now uuid4 u (some payload.name.val) payload.description
      if acceptsProject w.projects row then
        (answer ((ProjectRead.modelValidate row).map .project),
          { w with projects := w.projects ++ [row] })
      else (.error .dbError, w) := by
  rw [serve_eq]
  unfold Request.endpoint ProjectService.create
  rw [run_bind, run_projectAdd]
  dsimp only [projects_empty, clock_empty]
  by_cases haccepts : acceptsProject w.projects
    (newProject w.now uuid4 u (some payload.name.val) payload.description)
  · simp only [haccepts, if_true]
    rfl
  · simp only [haccepts, Bool.false_eq_true, if_false]

theorem serve_createTask (payload : TaskCreate) (uuid4 : UUID) :
    serve env w u (.createTask payload uuid4) = match w.project? payload.projectId u with
      | none => (.error (.projectNotFoundError "Project not found."), w)
      | some _ =>
        let row := newTask w.now uuid4 payload.projectId payload.modelDump
        if acceptsTask w.projects w.tasks row then
          (answer ((TaskRead.modelValidate row).map .task), { w with tasks := w.tasks ++ [row] })
        else (.error .dbError, w) := by
  rw [serve_eq]
  unfold Request.endpoint TaskService.create World.project?
  simp only [run_bind, ProjectRepository.getByIdForOwner, execute, run_perform, exec,
    projects_empty]
  cases (ownedProjects w.projects u).find? fun p => p.id == payload.projectId with
  | none => rfl
  | some p =>
    simp only [run_taskAdd]
    dsimp only [projects_begin, projects_empty, tasks_begin, tasks_empty, clock_begin, clock_empty]
    by_cases haccepts : acceptsTask w.projects w.tasks
      (newTask w.now uuid4 payload.projectId payload.modelDump)
    · simp only [haccepts, if_true]
      rfl
    · simp only [haccepts, Bool.false_eq_true, if_false]

theorem serve_getProject (id : UUID) :
    serve env w u (.getProject id) = match w.project? id u with
      | none => (.error (.projectNotFoundError "Project not found."), w)
      | some p => (answer ((ProjectRead.modelValidate p).map .project), w) := by
  rw [serve_eq]
  unfold Request.endpoint
  rw [run_bind, run_projectGet]
  unfold World.project?
  rw [projects_empty]
  cases (ownedProjects w.projects u).find? fun p => p.id == id with
  | none => rfl
  | some p =>
    dsimp only [respondProject]
    rw [run_respond]
    cases (ProjectRead.modelValidate p) <;> rfl

theorem serve_getTask (id : UUID) :
    serve env w u (.getTask id) = match w.task? id u with
      | none => (.error (.taskNotFoundError "Task not found."), w)
      | some t => (answer ((TaskRead.modelValidate t).map .task), w) := by
  rw [serve_eq]
  unfold Request.endpoint
  rw [run_bind, run_taskGet]
  unfold World.task?
  rw [projects_empty, tasks_empty]
  cases (ownedTasks w.projects w.tasks u).find? fun t => t.id == id with
  | none => rfl
  | some t =>
    dsimp only [respondTask]
    rw [run_respond]
    cases (TaskRead.modelValidate t) <;> rfl

theorem bigintOk_limit (pp : PageParams) : bigintOk pp.limit = true := by
  have h : pp.pageSize ≤ 100 := pp.size_le
  unfold bigintOk PageParams.limit
  simp only [decide_eq_true_eq]
  omega

theorem serve_listProjects (pp : PageParams) (ties : TieOrder) :
    serve env w u (.listProjects pp ties) =
      if bigintOk pp.offset then
        (answer (((page pp.offset pp.limit (newest ties (ownedProjects w.projects u))).mapM
          ProjectRead.modelValidate).map fun items =>
            .projects items (ownedProjects w.projects u).length pp.page pp.pageSize), w)
      else (.error .dbError, w) := by
  rw [serve_eq]
  unfold Request.endpoint ProjectService.list ProjectRepository.listForOwner
  simp only [run_bind, execute, run_perform, exec, bigintOk_limit, Bool.and_true, projects_empty,
    projects_begin]
  cases bigintOk pp.offset with
  | false => rfl
  | true =>
    simp only [if_true, pure_eq, run_done, run_respond]
    cases List.mapM ProjectRead.modelValidate
      (page pp.offset pp.limit (newest ties (ownedProjects w.projects u))) <;> rfl

theorem serve_listTasks (pp : PageParams) (filters : TaskFilters) (ties : TieOrder) :
    serve env w u (.listTasks pp filters ties) =
      if filters.sendable && bigintOk pp.offset then
        (answer (((page pp.offset pp.limit (newest ties (w.tasksFor env u filters))).mapM
          TaskRead.modelValidate).map fun items =>
            .tasks items (w.tasksFor env u filters).length pp.page pp.pageSize), w)
      else (.error .dbError, w) := by
  rw [serve_eq]
  unfold Request.endpoint TaskService.list TaskRepository.listForOwner World.tasksFor
  simp only [run_bind, execute, run_perform, exec, bigintOk_limit, Bool.and_true, projects_empty,
    tasks_empty]
  cases filters.sendable with
  | false => rfl
  | true =>
    cases bigintOk pp.offset with
    | false => rfl
    | true =>
      simp only [if_true, Bool.and_true, pure_eq, run_done, run_respond, projects_begin, tasks_begin,
        projects_empty, tasks_empty]
      cases List.mapM TaskRead.modelValidate (page pp.offset pp.limit (newest ties
        ((ownedTasks w.projects w.tasks u).filter (filters.admits env)))) <;> rfl

/-- What the update endpoint of a project does with the project it has found. -/
theorem serve_updateProject (id : UUID) (payload : ProjectUpdate) :
    serve env w u (.updateProject id payload) = match w.project? id u with
      | none => (.error (.projectNotFoundError "Project not found."), w)
      | some p => match ProjectRead.modelValidate (p.setattrs payload.modelDump) with
        | none => (.error .responseValidationError, w)
        | some r => match w.patchProject p payload.modelDump with
          | none => (.error .dbError, w)
          | some w' => (.ok (.project r), w') := by
  rw [serve_eq]
  unfold Request.endpoint ProjectService.update
  simp only [run_bind, run_projectGet, projects_empty]
  unfold World.project?
  cases (ownedProjects w.projects u).find? fun p => p.id == id with
  | none => rfl
  | some p =>
    simp only [execute, run_perform, exec, pure_eq, run_done, respondProject, run_respond]
    cases ProjectRead.modelValidate (p.setattrs payload.modelDump) with
    | none => rfl
    | some r =>
      dsimp only [Option.map_some, answer, Option.elim_some]
      rw [committed_assignProject]
      cases w.patchProject p payload.modelDump <;> rfl

/-- What the update endpoint of a task does with the task it has found. -/
theorem serve_updateTask (id : UUID) (payload : TaskUpdate) :
    serve env w u (.updateTask id payload) = match w.task? id u with
      | none => (.error (.taskNotFoundError "Task not found."), w)
      | some t => match TaskRead.modelValidate (t.setattrs payload.modelDump) with
        | none => (.error .responseValidationError, w)
        | some r => match w.patchTask t payload.modelDump with
          | none => (.error .dbError, w)
          | some w' => (.ok (.task r), w') := by
  rw [serve_eq]
  unfold Request.endpoint TaskService.update
  simp only [run_bind, run_taskGet, projects_empty, tasks_empty]
  unfold World.task?
  cases (ownedTasks w.projects w.tasks u).find? fun t => t.id == id with
  | none => rfl
  | some t =>
    simp only [execute, run_perform, exec, pure_eq, run_done, respondTask, run_respond]
    cases TaskRead.modelValidate (t.setattrs payload.modelDump) with
    | none => rfl
    | some r =>
      dsimp only [Option.map_some, answer, Option.elim_some]
      rw [committed_assignTask]
      cases w.patchTask t payload.modelDump <;> rfl

theorem serve_deleteProject (id : UUID) :
    serve env w u (.deleteProject id) = match w.project? id u with
      | none => (.error (.projectNotFoundError "Project not found."), w)
      | some p => (.ok .noContent, w.dropProject p) := by
  rw [serve_eq]
  unfold Request.endpoint ProjectService.delete TaskRepository.softDeleteByProject
    ProjectRepository.delete
  simp only [run_bind, run_projectGet, projects_empty]
  cases h : w.project? id u with
  | none => 
    unfold World.project? at h
    rw [h]
  | some p =>
    obtain ⟨-, hactive, -, -⟩ := project?_spec h
    unfold World.project? at h
    rw [h]
    simp only [execute, run_perform, exec, pure_eq, run_done]
    have hflush := fun l => flushOne_delete l w hactive w.now
    simp only [Session.begin, Session.write, Session.empty, flush_one, List.nil_append, hflush]
    rw [committed_clean _ _ rfl]
    rfl

theorem serve_deleteTask (id : UUID) :
    serve env w u (.deleteTask id) = match w.task? id u with
      | none => (.error (.taskNotFoundError "Task not found."), w)
      | some t => (.ok .noContent, w.dropTask t) := by
  rw [serve_eq]
  unfold Request.endpoint TaskService.delete TaskRepository.delete
  simp only [run_bind, run_taskGet, projects_empty, tasks_empty]
  cases h : w.task? id u with
  | none => 
    unfold World.task? at h
    rw [h]
  | some t =>
    obtain ⟨-, hactive, -, -⟩ := task?_spec h
    unfold World.task? at h
    rw [h]
    simp only [execute, run_perform, exec, pure_eq, run_done]
    have hflush := fun l => flushOne_deleteTask l w hactive w.now
    simp only [Session.begin, Session.empty, flush_one, List.nil_append, hflush]
    rw [committed_clean _ _ rfl]
    rfl

end Endpoints

end TaskMgtApp.Work

