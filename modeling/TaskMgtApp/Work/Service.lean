import TaskMgtApp.Work.Model

/-!
# The project and task services, as program text

`ProjectService`, `TaskService` and the repositories they call, the schemas of
their endpoints, and the request around them: FastAPI checks the body against
the schema, serializes what the endpoint returns, and then leaves `get_db`, which
commits, or rolls back when anything has raised. The `uuid4` of a new row and the
order of rows that an ORDER BY leaves open are arguments. `current_user` has been
authenticated before; that dependency belongs to the auth module.
-/
namespace TaskMgtApp.Work

open TaskMgtApp.Common
open TaskMgtApp.Lib.Program

/-- One command of the session. -/
abbrev execute (c : Cmd) : WorkM c.Val := Prog.perform c

/-! ## Repositories -/

namespace ProjectRepository

def getByIdForOwner (projectId ownerId : UUID) : WorkM (Option Project) :=
  execute (.selectProject projectId ownerId)

/-- Returns (items, total). -/
def listForOwner (ownerId : UUID) (pageParams : PageParams) (ties : TieOrder) :
    WorkM (List Project × Nat) := do
  let total ← execute (.countProjects ownerId)
  let items ← execute (.selectProjects ownerId ties pageParams.offset pageParams.limit)
  return (items, total)

/-- `add`, with the flush and the refresh. -/
def add (id ownerId : UUID) (name description : Option String) : WorkM Project := do
  let _ ← execute (.insertProject id ownerId name description)
  execute (.refreshProject id)

/-- `delete`: `mark_deleted`, then the flush. -/
def delete (project : Project) : WorkM Unit := do
  let now ← execute .datetimeNow
  let _ ← execute (.assignProject project [.deletedAt (some now)])
  execute .flush

end ProjectRepository

namespace TaskRepository

def getByIdForOwner (taskId ownerId : UUID) : WorkM (Option Task) :=
  execute (.selectTask taskId ownerId)

/-- Returns (items, total). -/
def listForOwner (ownerId : UUID) (filters : TaskFilters) (pageParams : PageParams)
    (ties : TieOrder) : WorkM (List Task × Nat) := do
  let total ← execute (.countTasks ownerId filters)
  let items ← execute (.selectTasks ownerId filters ties pageParams.offset pageParams.limit)
  return (items, total)

def add (id projectId : UUID) (fields : List TaskAttr) : WorkM Task := do
  let _ ← execute (.insertTask id projectId fields)
  execute (.refreshTask id)

def delete (task : Task) : WorkM Unit := do
  let now ← execute .datetimeNow
  let _ ← execute (.assignTask task [.deletedAt (some now)])
  execute .flush

def softDeleteByProject (projectId : UUID) : WorkM Unit := execute (.softDeleteByProject projectId)

end TaskRepository

/-! ## Services -/

namespace ProjectService

def create (ownerId : UUID) (name : String) (description : Option String) (uuid4 : UUID) :
    WorkM Project :=
  ProjectRepository.add uuid4 ownerId (some name) description

def list (ownerId : UUID) (pageParams : PageParams) (ties : TieOrder) :
    WorkM (List Project × Nat) :=
  ProjectRepository.listForOwner ownerId pageParams ties

def get (projectId ownerId : UUID) : WorkM Project := do
  match ← ProjectRepository.getByIdForOwner projectId ownerId with
  | none => throw (.projectNotFoundError "Project not found.")
  | some project => return project

def update (projectId ownerId : UUID) (fields : List ProjectAttr) : WorkM Project := do
  let project ← get projectId ownerId
  let _ ← execute (.assignProject project fields)
  return project.setattrs fields

def delete (projectId ownerId : UUID) : WorkM Unit := do
  let project ← get projectId ownerId
  let _ ← TaskRepository.softDeleteByProject project.id
  ProjectRepository.delete project

end ProjectService

namespace TaskService

def create (ownerId projectId : UUID) (fields : List TaskAttr) (uuid4 : UUID) : WorkM Task := do
  match ← ProjectRepository.getByIdForOwner projectId ownerId with
  | none => throw (.projectNotFoundError "Project not found.")
  | some _ => TaskRepository.add uuid4 projectId fields

def list (ownerId : UUID) (filters : TaskFilters) (pageParams : PageParams) (ties : TieOrder) :
    WorkM (List Task × Nat) :=
  TaskRepository.listForOwner ownerId filters pageParams ties

def get (taskId ownerId : UUID) : WorkM Task := do
  match ← TaskRepository.getByIdForOwner taskId ownerId with
  | none => throw (.taskNotFoundError "Task not found.")
  | some task => return task

def update (taskId ownerId : UUID) (fields : List TaskAttr) : WorkM Task := do
  let task ← get taskId ownerId
  let _ ← execute (.assignTask task fields)
  return task.setattrs fields

def delete (taskId ownerId : UUID) : WorkM Unit := do
  let task ← get taskId ownerId
  TaskRepository.delete task

end TaskService

/-! ## Schemas -/

/-- `Field(min_length=1, max_length=255)`. -/
def lengthOk (s : String) : Prop := 1 ≤ s.length ∧ s.length ≤ 255

instance (s : String) : Decidable (lengthOk s) := inferInstanceAs (Decidable (_ ∧ _))

/-- A text of 1 to 255 characters. -/
abbrev ShortText := { s : String // lengthOk s }

structure ProjectCreate where
  name : ShortText
  description : Option String
  deriving DecidableEq

/-- A field is `none` when the body does not have it, and `some none` when it has a null. -/
structure ProjectUpdate where
  name : Option (Option ShortText)
  description : Option (Option String)
  deriving DecidableEq

structure TaskCreate where
  projectId : UUID
  title : ShortText
  description : Option String
  status : TaskStatus
  priority : TaskPriority
  dueDate : Option Date
  deriving DecidableEq

structure TaskUpdate where
  title : Option (Option ShortText)
  description : Option (Option String)
  status : Option (Option TaskStatus)
  priority : Option (Option TaskPriority)
  dueDate : Option (Option Date)
  deriving DecidableEq

/-- `model_dump(exclude_unset=True)`. -/
def ProjectUpdate.modelDump (p : ProjectUpdate) : List ProjectAttr :=
  (p.name.map fun v => .name (v.map (·.val))).toList ++ (p.description.map .description).toList

/-- `model_dump(exclude={"project_id"})`. -/
def TaskCreate.modelDump (p : TaskCreate) : List TaskAttr :=
  [.title (some p.title.val), .description p.description, .status (some p.status),
    .priority (some p.priority), .dueDate p.dueDate]

/-- `model_dump(exclude_unset=True)`. -/
def TaskUpdate.modelDump (p : TaskUpdate) : List TaskAttr :=
  (p.title.map fun v => .title (v.map (·.val))).toList ++ (p.description.map .description).toList ++
    (p.status.map .status).toList ++ (p.priority.map .priority).toList ++
    (p.dueDate.map .dueDate).toList

structure ProjectRead where
  id : UUID
  ownerId : UUID
  name : String
  description : Option String
  createdAt : Nat
  updatedAt : Nat
  deriving DecidableEq

structure TaskRead where
  id : UUID
  projectId : UUID
  title : String
  description : Option String
  status : TaskStatus
  priority : TaskPriority
  dueDate : Option Date
  createdAt : Nat
  updatedAt : Nat
  deriving DecidableEq

/-- `ProjectRead.model_validate`. -/
def ProjectRead.modelValidate (p : Project) : Option ProjectRead := do
  let name ← p.name
  return ⟨p.id, p.ownerId, name, p.description, p.createdAt, p.updatedAt⟩

/-- `TaskRead.model_validate`. -/
def TaskRead.modelValidate (t : Task) : Option TaskRead := do
  let title ← t.title
  let status ← t.status
  let priority ← t.priority
  return ⟨t.id, t.projectId, title, t.description, status, priority, t.dueDate, t.createdAt, t.updatedAt⟩

/-! ## Requests -/

/-- What an endpoint returns. -/
inductive Reply where
  | project (p : ProjectRead)
  | projects (items : List ProjectRead) (total page pageSize : Nat)
  | task (t : TaskRead)
  | tasks (items : List TaskRead) (total page pageSize : Nat)
  | noContent
  deriving DecidableEq

/-- The endpoints, with what they take from a request that fits its schema, and the draws. -/
inductive Request where
  | createProject (payload : ProjectCreate) (uuid4 : UUID)
  | listProjects (pageParams : PageParams) (ties : TieOrder)
  | getProject (projectId : UUID)
  | updateProject (projectId : UUID) (payload : ProjectUpdate)
  | deleteProject (projectId : UUID)
  | createTask (payload : TaskCreate) (uuid4 : UUID)
  | listTasks (pageParams : PageParams) (filters : TaskFilters) (ties : TieOrder)
  | getTask (taskId : UUID)
  | updateTask (taskId : UUID) (payload : TaskUpdate)
  | deleteTask (taskId : UUID)

/-- Serialize the result with the response model. -/
def respond (reply : Option Reply) : WorkM Reply :=
  match reply with
  | some r => return r
  | none => throw .responseValidationError

def respondProject (p : Project) : WorkM Reply :=
  respond ((ProjectRead.modelValidate p).map .project)

def respondTask (t : Task) : WorkM Reply := respond ((TaskRead.modelValidate t).map .task)

/-- `get_db` around an endpoint and the serialization of its result. -/
def getDb {α : Type} (body : WorkM α) : WorkM α :=
  tryCatch
    (do
      let result ← body
      let _ ← execute .commit
      return result)
    fun exc => do
      let _ ← execute .rollback
      throw exc

/-- The body of an endpoint, for the user who calls it. -/
def Request.endpoint (currentUser : UUID) : Request → WorkM Reply
  | .createProject payload uuid4 => do
      let project ← ProjectService.create currentUser payload.name.val payload.description uuid4
      respondProject project
  | .listProjects pageParams ties => do
      let (items, total) ← ProjectService.list currentUser pageParams ties
      respond ((items.mapM ProjectRead.modelValidate).map fun items =>
        .projects items total pageParams.page pageParams.pageSize)
  | .getProject projectId => do
      let project ← ProjectService.get projectId currentUser
      respondProject project
  | .updateProject projectId payload => do
      let project ← ProjectService.update projectId currentUser payload.modelDump
      respondProject project
  | .deleteProject projectId => do
      let _ ← ProjectService.delete projectId currentUser
      return .noContent
  | .createTask payload uuid4 => do
      let task ← TaskService.create currentUser payload.projectId payload.modelDump uuid4
      respondTask task
  | .listTasks pageParams filters ties => do
      let (items, total) ← TaskService.list currentUser filters pageParams ties
      respond ((items.mapM TaskRead.modelValidate).map fun items =>
        .tasks items total pageParams.page pageParams.pageSize)
  | .getTask taskId => do
      let task ← TaskService.get taskId currentUser
      respondTask task
  | .updateTask taskId payload => do
      let task ← TaskService.update taskId currentUser payload.modelDump
      respondTask task
  | .deleteTask taskId => do
      let _ ← TaskService.delete taskId currentUser
      return .noContent

/-- A request from its first command to its commit. -/
def Request.program (currentUser : UUID) (r : Request) : WorkM Reply := getDb (r.endpoint currentUser)

/-- Serve one request to its end with nothing beside it. -/
def serve (env : Env) (w : World) (currentUser : UUID) (r : Request) : Except Exc Reply × World :=
  let (result, _, w') := (r.program currentUser).run (exec env) (.empty, w)
  (result, w')

end TaskMgtApp.Work
