import TaskMgtApp.Work.Service

/-!
# The requests as they arrive

A path, query parameters, and a JSON body. FastAPI and pydantic read from a body
the fields of its schema and from a query the parameters of the endpoint, and
nothing else; what does not fit ends with `RequestValidationError` before the
endpoint runs. That error lists what does not fit, which depends on the request
alone; the list is not modelled.
-/
namespace TaskMgtApp.Work

open TaskMgtApp.Common

/-- A JSON value. A number is kept as its text. -/
inductive Json where
  | null
  | bool (value : Bool)
  | number (text : String)
  | string (value : String)
  | array (items : List Json)
  | object (fields : List (String × Json))

/-- The conversions of pydantic: what it reads as a `UUID`, as a `date`, and as an `int`. -/
structure Pydantic where
  uuid : String → Option UUID
  date : Json → Option Date
  int : String → Option Int

/-! ## Values -/

/-- The last value under a key wins. -/
def lookup {α : Type} (key : String) (fields : List (String × α)) : Option α :=
  (fields.reverse.find? fun f => f.1 == key).map (·.2)

/-- `str`. -/
def readText : Json → Option String
  | .string s => some s
  | _ => none

/-- `str` with `Field(min_length=1, max_length=255)`. -/
def shortText (s : String) : Option ShortText := if h : lengthOk s then some ⟨s, h⟩ else none

def readShortText (j : Json) : Option ShortText := (readText j).bind shortText

/-- `TaskStatus`, by its value. -/
def taskStatus : String → Option TaskStatus
  | "todo" => some .todo
  | "in_progress" => some .inProgress
  | "done" => some .done
  | _ => none

/-- `TaskPriority`, by its value. -/
def taskPriority : String → Option TaskPriority
  | "low" => some .low
  | "medium" => some .medium
  | "high" => some .high
  | _ => none

/-- `T | None`. -/
def nullable {α : Type} (read : Json → Option α) : Json → Option (Option α)
  | .null => some none
  | j => (read j).map some

/-- A field without a default. -/
def required {α : Type} (fields : List (String × Json)) (key : String) (read : Json → Option α) :
    Option α := (lookup key fields).bind read

/-- A field with a default. -/
def withDefault {α : Type} (default : α) (fields : List (String × Json)) (key : String)
    (read : Json → Option α) : Option α :=
  match lookup key fields with
  | none => some default
  | some j => read j

/-- A field of an update, which may be left out. -/
def supplied {α : Type} (fields : List (String × Json)) (key : String) (read : Json → Option α) :
    Option (Option α) :=
  match lookup key fields with
  | none => some none
  | some j => (read j).map some

/-! ## Schemas -/

section Schemas
variable (px : Pydantic) (fields : List (String × Json))

def ProjectCreate.validate : Option ProjectCreate := do
  let name ← required fields "name" readShortText
  let description ← withDefault none fields "description" (nullable readText)
  return { name, description }

def ProjectUpdate.validate : Option ProjectUpdate := do
  let name ← supplied fields "name" (nullable readShortText)
  let description ← supplied fields "description" (nullable readText)
  return { name, description }

def TaskCreate.validate : Option TaskCreate := do
  let projectId ← required fields "project_id" fun j => (readText j).bind px.uuid
  let title ← required fields "title" readShortText
  let description ← withDefault none fields "description" (nullable readText)
  let status ← withDefault .todo fields "status" fun j => (readText j).bind taskStatus
  let priority ← withDefault .medium fields "priority" fun j => (readText j).bind taskPriority
  let dueDate ← withDefault none fields "due_date" (nullable px.date)
  return { projectId, title, description, status, priority, dueDate }

def TaskUpdate.validate : Option TaskUpdate := do
  let title ← supplied fields "title" (nullable readShortText)
  let description ← supplied fields "description" (nullable readText)
  let status ← supplied fields "status" (nullable fun j => (readText j).bind taskStatus)
  let priority ← supplied fields "priority" (nullable fun j => (readText j).bind taskPriority)
  let dueDate ← supplied fields "due_date" (nullable px.date)
  return { title, description, status, priority, dueDate }

end Schemas

/-- The fields of a body; `none` is a body that is missing or not JSON. -/
def bodyFields : Option Json → Option (List (String × Json))
  | some (.object fields) => some fields
  | _ => none

/-- The parameters of a query string, in order. -/
abbrev Query := List (String × String)

/-- A query parameter that may be left out. -/
def queryParam {α : Type} (query : Query) (key : String) (read : String → Option α) :
    Option (Option α) :=
  match lookup key query with
  | none => some none
  | some s => (read s).map some

/-- `PageParams`, from the query. -/
def PageParams.validate (px : Pydantic) (query : Query) : Option PageParams := do
  let page := (← queryParam query "page" px.int).getD 1
  let pageSize := (← queryParam query "page_size" px.int).getD 20
  if h : 1 ≤ page ∧ 1 ≤ pageSize ∧ pageSize ≤ maxPageSize then
    some ⟨page.toNat, pageSize.toNat, by omega, by omega, by omega⟩
  else none

/-- `TaskFilters`, from the query. -/
def TaskFilters.validate (px : Pydantic) (query : Query) : Option TaskFilters := do
  let projectId ← queryParam query "project_id" px.uuid
  let status ← queryParam query "status" taskStatus
  let priority ← queryParam query "priority" taskPriority
  let search ← queryParam query "search" shortText
  return { projectId, status, priority, search := search.map (·.val) }

/-! ## Requests -/

/-- A request to one of the ten endpoints, with the draws. -/
inductive HttpRequest where
  | postProjects (body : Option Json) (uuid4 : UUID)
  | getProjects (query : Query) (ties : TieOrder)
  | getProject (projectId : String)
  | patchProject (projectId : String) (body : Option Json)
  | deleteProject (projectId : String)
  | postTasks (body : Option Json) (uuid4 : UUID)
  | getTasks (query : Query) (ties : TieOrder)
  | getTask (taskId : String)
  | patchTask (taskId : String) (body : Option Json)
  | deleteTask (taskId : String)

/-- What the endpoint is called with, if the request fits. -/
def HttpRequest.validate (px : Pydantic) : HttpRequest → Option Request
  | postProjects body uuid4 => do
      let payload ← ProjectCreate.validate (← bodyFields body)
      return .createProject payload uuid4
  | getProjects query ties => do
      let pageParams ← PageParams.validate px query
      return .listProjects pageParams ties
  | getProject projectId => (px.uuid projectId).map .getProject
  | patchProject projectId body => do
      let projectId ← px.uuid projectId
      let payload ← ProjectUpdate.validate (← bodyFields body)
      return .updateProject projectId payload
  | deleteProject projectId => (px.uuid projectId).map .deleteProject
  | postTasks body uuid4 => do
      let payload ← TaskCreate.validate px (← bodyFields body)
      return .createTask payload uuid4
  | getTasks query ties => do
      let pageParams ← PageParams.validate px query
      let filters ← TaskFilters.validate px query
      return .listTasks pageParams filters ties
  | getTask taskId => (px.uuid taskId).map .getTask
  | patchTask taskId body => do
      let taskId ← px.uuid taskId
      let payload ← TaskUpdate.validate px (← bodyFields body)
      return .updateTask taskId payload
  | deleteTask taskId => (px.uuid taskId).map .deleteTask

/-- Serve one request of an authenticated user. -/
def handle (env : Env) (px : Pydantic) (w : World) (user : UUID) (h : HttpRequest) :
    Except Exc Reply × World :=
  match h.validate px with
  | none => (.error .requestValidationError, w)
  | some r => serve env w user r

end TaskMgtApp.Work
