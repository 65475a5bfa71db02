import TaskMgtApp.Work.Effects

/-!
# The store as its clients know it

Every owner has projects, each with its tasks. To delete a project is to remove
it with all its tasks; to delete a task is to remove it. No record of what was
removed is kept. This is a description of the purpose of the two services, not of
their code: `Work.Refinement` compares them.
-/
namespace TaskMgtApp.Work

open TaskMgtApp.Common
open TaskMgtApp.Lib.Listing

namespace HardDelete

/-- A project and its tasks. -/
structure Entry where
  project : ProjectRead
  tasks : List TaskRead
  deriving DecidableEq

/-! ## What the request brings -/

/-- Whether the texts of the request can be stored. -/
def projectCreateOk (payload : ProjectCreate) : Bool :=
  textOk payload.name.val && payload.description.all textOk

def projectUpdateOk (payload : ProjectUpdate) : Bool :=
  payload.name.all (·.all fun s => textOk s.val) && payload.description.all (·.all textOk)

def taskCreateOk (payload : TaskCreate) : Bool :=
  textOk payload.title.val && payload.description.all textOk

def taskUpdateOk (payload : TaskUpdate) : Bool :=
  payload.title.all (·.all fun s => textOk s.val) && payload.description.all (·.all textOk)

/-- The project with the supplied fields, unless a supplied name is null. -/
def applyProject (payload : ProjectUpdate) (p : ProjectRead) : Option ProjectRead := do
  let name ← (payload.name.map (Option.map Subtype.val)).getD (some p.name)
  return { p with name := name, description := payload.description.getD p.description }

/-- The task with the supplied fields, unless a supplied title, status or priority is null. -/
def applyTask (payload : TaskUpdate) (t : TaskRead) : Option TaskRead := do
  let title ← (payload.title.map (Option.map Subtype.val)).getD (some t.title)
  let status ← payload.status.getD (some t.status)
  let priority ← payload.priority.getD (some t.priority)
  return { t with
    title := title
    description := payload.description.getD t.description
    status := status
    priority := priority
    dueDate := payload.dueDate.getD t.dueDate }

/-- A project that has changed is updated now. -/
def touchProject (now : Nat) (before after : ProjectRead) : ProjectRead :=
  if after = before then before else { after with updatedAt := now }

def touchTask (now : Nat) (before after : TaskRead) : TaskRead :=
  if after = before then before else { after with updatedAt := now }

/-- The conditions of the filters. -/
def admits (env : Env) (f : TaskFilters) (t : TaskRead) : Bool :=
  f.projectId.all (t.projectId == ·) &&
  f.status.all (t.status == ·) &&
  f.priority.all (t.priority == ·) &&
  f.pattern.all fun pattern => ilike env pattern (some t.title) || ilike env pattern t.description

/-! ## The operations -/

def project? (entries : List Entry) (id : UUID) : Option ProjectRead :=
  (entries.map Entry.project).find? fun p => p.id == id

/-- The tasks of all projects. -/
def allTasks (entries : List Entry) : List TaskRead := entries.flatMap Entry.tasks

def task? (entries : List Entry) (id : UUID) : Option TaskRead :=
  (allTasks entries).find? fun t => t.id == id

def addTask (t : TaskRead) (entries : List Entry) : List Entry :=
  entries.map fun e => if e.project.id = t.projectId then { e with tasks := e.tasks ++ [t] } else e

def setProject (p : ProjectRead) (entries : List Entry) : List Entry :=
  entries.map fun e => if e.project.id = p.id then { e with project := p } else e

def setTask (t : TaskRead) (entries : List Entry) : List Entry :=
  entries.map fun e => { e with tasks := e.tasks.map fun s => if s.id = t.id then t else s }

def removeProject (id : UUID) (entries : List Entry) : List Entry :=
  entries.filter fun e => e.project.id ≠ id

def removeTask (id : UUID) (entries : List Entry) : List Entry :=
  entries.map fun e => { e with tasks := e.tasks.filter fun t => t.id ≠ id }

/-- One request of `owner` at the instant `now`. -/
def serve (env : Env) (now : Nat) (owner : UUID) (entries : List Entry) :
    Request → Except Exc Reply × List Entry
  | .createProject payload uuid4 =>
      let p : ProjectRead := ⟨uuid4, owner, payload.name.val, payload.description, now, now⟩
      if projectCreateOk payload then (.ok (.project p), entries ++ [⟨p, []⟩])
      else (.error .dbError, entries)
  | .listProjects pageParams ties =>
      let found := entries.map Entry.project
      let items := page pageParams.offset pageParams.limit
        (latestFirst ProjectRead.createdAt (fun p => ties.rank p.id) found)
      if bigintOk pageParams.offset then
        (.ok (.projects items found.length pageParams.page pageParams.pageSize), entries)
      else (.error .dbError, entries)
  | .getProject id =>
      match project? entries id with
      | none => (.error (.projectNotFoundError "Project not found."), entries)
      | some p => (.ok (.project p), entries)
  | .updateProject id payload =>
      match project? entries id with
      | none => (.error (.projectNotFoundError "Project not found."), entries)
      | some p =>
        match applyProject payload p with
        | none => (.error .responseValidationError, entries)
        | some p' =>
          if projectUpdateOk payload then
            (.ok (.project p'), setProject (touchProject now p p') entries)
          else (.error .dbError, entries)
  | .deleteProject id =>
      match project? entries id with
      | none => (.error (.projectNotFoundError "Project not found."), entries)
      | some _ => (.ok .noContent, removeProject id entries)
  | .createTask payload uuid4 =>
      match project? entries payload.projectId with
      | none => (.error (.projectNotFoundError "Project not found."), entries)
      | some _ =>
        let t : TaskRead := ⟨uuid4, payload.projectId, payload.title.val, payload.description,
          payload.status, payload.priority, payload.dueDate, now, now⟩
        if taskCreateOk payload then (.ok (.task t), addTask t entries)
        else (.error .dbError, entries)
  | .listTasks pageParams filters ties =>
      let found := (allTasks entries).filter (admits env filters)
      let items := page pageParams.offset pageParams.limit
        (latestFirst TaskRead.createdAt (fun t => ties.rank t.id) found)
      if filters.sendable && bigintOk pageParams.offset then
        (.ok (.tasks items found.length pageParams.page pageParams.pageSize), entries)
      else (.error .dbError, entries)
  | .getTask id =>
      match task? entries id with
      | none => (.error (.taskNotFoundError "Task not found."), entries)
      | some t => (.ok (.task t), entries)
  | .updateTask id payload =>
      match task? entries id with
      | none => (.error (.taskNotFoundError "Task not found."), entries)
      | some t =>
        match applyTask payload t with
        | none => (.error .responseValidationError, entries)
        | some t' =>
          if taskUpdateOk payload then (.ok (.task t'), setTask (touchTask now t t') entries)
          else (.error .dbError, entries)
  | .deleteTask id =>
      match task? entries id with
      | none => (.error (.taskNotFoundError "Task not found."), entries)
      | some _ => (.ok .noContent, removeTask id entries)

/-- Serve the calls one after the other, each from what its caller has. -/
def serveAll (env : Env) :
    (UUID → List Entry) → List Call → List (Except Exc Reply) × (UUID → List Entry)
  | store, [] => ([], store)
  | store, c :: calls =>
    let (reply, entries) := serve env c.now c.user (store c.user) c.request
    let (replies, store') := serveAll env (Function.update store c.user entries) calls
    (reply :: replies, store')

end HardDelete

end TaskMgtApp.Work
