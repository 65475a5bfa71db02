import TaskMgtApp.Common
import TaskMgtApp.Lib.Like
import TaskMgtApp.Lib.Listing

/-!
# Projects and tasks: the tables and the statements

A request sees the committed rows of `projects` and `tasks`. Its session holds
the attributes it has assigned (`dirty`), which reach the database with the next
flush, and what it has written and not committed (`written`). One command is one
SQL statement, the commit, or a reading of the clock. A statement sees the rows
committed before it and the writes of its own transaction (READ COMMITTED).

The ORM object and the row have the same attributes; a column that is NOT NULL
holds `none` only in an object, and the flush refuses it. `users` is not
modelled: the owner of a project is a user that has authenticated, and no row of
`users` is ever removed.
-/
namespace TaskMgtApp.Work

open TaskMgtApp.Common
open TaskMgtApp.Lib.Program (Prog)
open TaskMgtApp.Lib.Listing

/-! ## Rows -/

inductive TaskStatus where
  | todo
  | inProgress
  | done
  deriving DecidableEq

inductive TaskPriority where
  | low
  | medium
  | high
  deriving DecidableEq

/-- A calendar day, `datetime.date.toordinal`. -/
abbrev Date := Nat

/-- A row of `projects`, or the ORM object of one. -/
structure Project where
  id : UUID
  ownerId : UUID
  name : Option String
  description : Option String
  createdAt : Nat
  updatedAt : Nat
  deletedAt : Option Nat
  deriving DecidableEq

/-- A row of `tasks`, or the ORM object of one. -/
structure Task where
  id : UUID
  projectId : UUID
  title : Option String
  description : Option String
  status : Option TaskStatus
  priority : Option TaskPriority
  dueDate : Option Date
  createdAt : Nat
  updatedAt : Nat
  deletedAt : Option Nat
  deriving DecidableEq

/-- What `SoftDeleteRepository` knows of an entity. -/
class Entity (M : Type) where
  id : M → UUID
  createdAt : M → Nat
  deletedAt : M → Option Nat

instance : Entity Project := ⟨Project.id, Project.createdAt, Project.deletedAt⟩
instance : Entity Task := ⟨Task.id, Task.createdAt, Task.deletedAt⟩

/-- `_active`: the rows whose `deleted_at` is null. -/
def active {M : Type} [Entity M] (rows : List M) : List M :=
  rows.filter fun m => (Entity.deletedAt m).isNone

/-! ## Attributes -/

/-- `setattr(project, key, value)`, for the columns of a project that a request could name. -/
inductive ProjectAttr where
  | ownerId (value : UUID)
  | name (value : Option String)
  | description (value : Option String)
  | deletedAt (value : Option Nat)
  deriving DecidableEq

inductive TaskAttr where
  | projectId (value : UUID)
  | title (value : Option String)
  | description (value : Option String)
  | status (value : Option TaskStatus)
  | priority (value : Option TaskPriority)
  | dueDate (value : Option Date)
  | deletedAt (value : Option Nat)
  deriving DecidableEq

def Project.setattr (p : Project) : ProjectAttr → Project
  | .ownerId v => { p with ownerId := v }
  | .name v => { p with name := v }
  | .description v => { p with description := v }
  | .deletedAt v => { p with deletedAt := v }

def Task.setattr (t : Task) : TaskAttr → Task
  | .projectId v => { t with projectId := v }
  | .title v => { t with title := v }
  | .description v => { t with description := v }
  | .status v => { t with status := v }
  | .priority v => { t with priority := v }
  | .dueDate v => { t with dueDate := v }
  | .deletedAt v => { t with deletedAt := v }

/-- The object after a loop of `setattr`. -/
def Project.setattrs (p : Project) (fields : List ProjectAttr) : Project := fields.foldl setattr p
def Task.setattrs (t : Task) (fields : List TaskAttr) : Task := fields.foldl setattr t

/-- PostgreSQL takes every text without a NUL. -/
def textOk (s : String) : Bool := !s.toList.contains (Char.ofNat 0)

/-- A `varchar(n)` takes a text of at most `n` characters. -/
def varcharOk (n : Nat) (s : String) : Bool := s.length ≤ n && textOk s

/-- Whether the column takes the value: its type, NOT NULL, and its foreign key. -/
def ProjectAttr.storable : ProjectAttr → Bool
  | .ownerId _ => true
  | .name v => v.elim false (varcharOk 255)
  | .description v => v.elim true textOk
  | .deletedAt _ => true

def TaskAttr.storable (projects : List Project) : TaskAttr → Bool
  | .projectId v => projects.any fun p => p.id == v
  | .title v => v.elim false (varcharOk 255)
  | .description v => v.elim true textOk
  | .status v => v.isSome
  | .priority v => v.isSome
  | .dueDate _ => true
  | .deletedAt _ => true

/-- Whether every column takes the value that the object has for it. -/
def Project.storable (p : Project) : Bool :=
  [.ownerId p.ownerId, .name p.name, .description p.description].all ProjectAttr.storable

def Task.storable (projects : List Project) (t : Task) : Bool :=
  [.projectId t.projectId, .title t.title, .description t.description, .status t.status,
    .priority t.priority].all (TaskAttr.storable projects)

/-! ## State -/

/-- A statement of the session that has changed the tables. -/
inductive Write where
  | insertProject (row : Project)
  | updateProject (id : UUID) (fields : List ProjectAttr) (updatedAt : Nat)
  | insertTask (row : Task)
  | updateTasks (ids : List UUID) (fields : List TaskAttr) (updatedAt : Nat)
  deriving DecidableEq

/-- An object of the session with the attributes assigned since it was loaded. -/
inductive Dirty where
  | project (loaded : Project) (fields : List ProjectAttr)
  | task (loaded : Task) (fields : List TaskAttr)
  deriving DecidableEq

/-- The database session of one request. -/
structure Session where
  /-- The instant at which the transaction began, `now()` in SQL. -/
  began : Option Nat
  dirty : List Dirty
  written : List Write
  deriving DecidableEq

def Session.empty : Session := ⟨none, [], []⟩

structure World where
  now : Nat
  projects : List Project
  tasks : List Task
  deriving DecidableEq

abbrev State := Session × World

/-- The table of projects after the write. -/
def Write.onProjects (rows : List Project) : Write → List Project
  | insertProject row => rows ++ [row]
  | updateProject id fields at_ =>
      rows.map fun p => if p.id = id then { p.setattrs fields with updatedAt := at_ } else p
  | insertTask _ | updateTasks _ _ _ => rows

/-- The table of tasks after the write. -/
def Write.onTasks (rows : List Task) : Write → List Task
  | insertTask row => rows ++ [row]
  | updateTasks ids fields at_ =>
      rows.map fun t => if t.id ∈ ids then { t.setattrs fields with updatedAt := at_ } else t
  | insertProject _ | updateProject _ _ _ => rows

namespace Session

/-- The projects a statement of the session sees. -/
def projects (l : Session) (w : World) : List Project := l.written.foldl Write.onProjects w.projects

/-- The tasks a statement of the session sees. -/
def tasks (l : Session) (w : World) : List Task := l.written.foldl Write.onTasks w.tasks

/-- `now()` in a statement: the instant at which the transaction began. -/
def clock (l : Session) (w : World) : Nat := l.began.getD w.now

/-- The transaction begins with its first statement. -/
def begin (l : Session) (w : World) : Session := { l with began := some (l.clock w) }

def write (l : Session) (x : Write) : Session := { l with written := l.written ++ [x] }

/-- The UPDATE of one object: the columns whose value has changed. -/
def flushOne (w : World) (l : Session) : Dirty → Option Session
  | .project loaded fields =>
      let changed := fields.filter fun a => loaded.setattr a ≠ loaded
      if changed = [] then some l
      else if changed.all ProjectAttr.storable then
        some (l.write (.updateProject loaded.id changed (l.clock w)))
      else none
  | .task loaded fields =>
      let changed := fields.filter fun a => loaded.setattr a ≠ loaded
      if changed = [] then some l
      else if changed.all (TaskAttr.storable (l.projects w)) then
        some (l.write (.updateTasks [loaded.id] changed (l.clock w)))
      else none

/-- `session.flush()`, unless a constraint refuses it. -/
def flush (l : Session) (w : World) : Option Session :=
  l.dirty.foldlM (flushOne w) { l.begin w with dirty := [] }

end Session

/-! ## Queries -/

/-- The library function the queries rest on: the lower case of a character in the database. -/
structure Env where
  lower : Char → Char

/-- The order in which a statement returns rows that its ORDER BY leaves open. -/
structure TieOrder where
  rank : UUID → Nat
  injective : ∀ u v, rank u = rank v → u = v

/-- `MAX_PAGE_SIZE`. -/
def maxPageSize : Nat := 100

/-- `PageParams`. -/
structure PageParams where
  page : Nat
  pageSize : Nat
  page_pos : 1 ≤ page
  size_pos : 1 ≤ pageSize
  size_le : pageSize ≤ maxPageSize

def PageParams.offset (p : PageParams) : Nat := (p.page - 1) * p.pageSize
def PageParams.limit (p : PageParams) : Nat := p.pageSize

/-- Whether the driver can send the number as the `bigint` of an OFFSET. -/
def bigintOk (n : Nat) : Bool := n < 0x8000000000000000

/-- `TaskFilters`. -/
structure TaskFilters where
  projectId : Option UUID
  status : Option TaskStatus
  priority : Option TaskPriority
  search : Option String
  deriving DecidableEq

/-- `column ILIKE pattern`; NULL is not a match. -/
def ilike (env : Env) (pattern : String) (column : Option String) : Bool :=
  match column with
  | none => false
  | some s =>
    (Lib.Like.like (pattern.toList.map env.lower) (s.toList.map env.lower)).getD false

/-- `if filters.search`: the pattern, unless the search is missing or empty. -/
def TaskFilters.pattern (f : TaskFilters) : Option String :=
  (f.search.filter fun s => s ≠ "").map fun s => "%" ++ s ++ "%"

/-- The conditions that the filters add to the query. -/
def TaskFilters.admits (env : Env) (f : TaskFilters) (t : Task) : Bool :=
  f.projectId.all (t.projectId == ·) &&
  f.status.all (fun s => t.status == some s) &&
  f.priority.all (fun p => t.priority == some p) &&
  f.pattern.all fun pattern => ilike env pattern t.title || ilike env pattern t.description

/-- Whether the driver can send the filters. -/
def TaskFilters.sendable (f : TaskFilters) : Bool := f.pattern.all textOk

/-- The active projects of an owner. -/
def ownedProjects (projects : List Project) (owner : UUID) : List Project :=
  (active projects).filter fun p => p.ownerId == owner

/-- The active tasks whose project is active and belongs to the owner. Ids of projects are
unique, so the join finds at most one project for a task. -/
def ownedTasks (projects : List Project) (tasks : List Task) (owner : UUID) : List Task :=
  (active tasks).filter fun t => (ownedProjects projects owner).any fun p => p.id == t.projectId

/-- ORDER BY created_at DESC. -/
def newest {M : Type} [Entity M] (ties : TieOrder) (rows : List M) : List M :=
  latestFirst Entity.createdAt (fun m => ties.rank (Entity.id m)) rows

/-! ## Commands -/

inductive Cmd where
  | selectProject (id owner : UUID)
  | countProjects (owner : UUID)
  | selectProjects (owner : UUID) (ties : TieOrder) (offset limit : Nat)
  | insertProject (id ownerId : UUID) (name description : Option String)
  | refreshProject (id : UUID)
  | assignProject (loaded : Project) (fields : List ProjectAttr)
  | selectTask (id owner : UUID)
  | countTasks (owner : UUID) (filters : TaskFilters)
  | selectTasks (owner : UUID) (filters : TaskFilters) (ties : TieOrder) (offset limit : Nat)
  | insertTask (id projectId : UUID) (fields : List TaskAttr)
  | refreshTask (id : UUID)
  | assignTask (loaded : Task) (fields : List TaskAttr)
  | softDeleteByProject (projectId : UUID)
  | flush
  | datetimeNow
  | commit
  | rollback

/-- The value a command returns. -/
abbrev Cmd.Val : Cmd → Type
  | .selectProject _ _ => Option Project
  | .countProjects _ => Nat
  | .selectProjects _ _ _ _ => List Project
  | .insertProject _ _ _ _ => Unit
  | .refreshProject _ => Project
  | .assignProject _ _ => Unit
  | .selectTask _ _ => Option Task
  | .countTasks _ _ => Nat
  | .selectTasks _ _ _ _ _ => List Task
  | .insertTask _ _ _ => Unit
  | .refreshTask _ => Task
  | .assignTask _ _ => Unit
  | .softDeleteByProject _ => Unit
  | .flush => Unit
  | .datetimeNow => Nat
  | .commit => Unit
  | .rollback => Unit

/-- A piece of service code. -/
abbrev WorkM := Prog Cmd.Val Exc

/-- The row that `INSERT INTO projects` writes at the instant `now`. -/
def newProject (now : Nat) (id ownerId : UUID) (name description : Option String) : Project :=
  ⟨id, ownerId, name, description, now, now, none⟩

/-- The row that `INSERT INTO tasks` writes at the instant `now`, with the defaults of the model. -/
def newTask (now : Nat) (id projectId : UUID) (fields : List TaskAttr) : Task :=
  Task.setattrs ⟨id, projectId, none, none, some .todo, some .medium, none, now, now, none⟩ fields

/-- Whether `projects` takes the row: a new primary key, and every column its value. -/
def acceptsProject (rows : List Project) (p : Project) : Bool :=
  rows.all (fun row => row.id ≠ p.id) && p.storable

/-- Whether `tasks` takes the row. -/
def acceptsTask (projects : List Project) (rows : List Task) (t : Task) : Bool :=
  rows.all (fun row => row.id ≠ t.id) && t.storable projects

/-- One atomic command of a session. -/
def exec (env : Env) : (c : Cmd) → State → Except Exc c.Val × State
  | .selectProject id owner, (l, w) =>
      (.ok ((ownedProjects (l.projects w) owner).find? fun p => p.id == id), l.begin w, w)
  | .countProjects owner, (l, w) =>
      (.ok (ownedProjects (l.projects w) owner).length, l.begin w, w)
  | .selectProjects owner ties offset limit, (l, w) =>
      if bigintOk offset && bigintOk limit then
        (.ok (page offset limit (newest ties (ownedProjects (l.projects w) owner))), l.begin w, w)
      else (.error .dbError, l, w)
  | .insertProject id ownerId name description, (l, w) =>
      let row := newProject (l.clock w) id ownerId name description
      if acceptsProject (l.projects w) row then
        (.ok (), (l.begin w).write (.insertProject row), w)
      else (.error .dbError, l.begin w, w)
  | .refreshProject id, (l, w) =>
      match (l.projects w).find? fun p => p.id == id with
      | some p => (.ok p, l.begin w, w)
      | none => (.error .dbError, l.begin w, w)
  | .assignProject loaded fields, (l, w) =>
      (.ok (), { l with dirty := l.dirty ++ [.project loaded fields] }, w)
  | .selectTask id owner, (l, w) =>
      (.ok ((ownedTasks (l.projects w) (l.tasks w) owner).find? fun t => t.id == id), l.begin w, w)
  | .countTasks owner filters, (l, w) =>
      if filters.sendable then
        (.ok ((ownedTasks (l.projects w) (l.tasks w) owner).filter (filters.admits env)).length,
          l.begin w, w)
      else (.error .dbError, l, w)
  | .selectTasks owner filters ties offset limit, (l, w) =>
      if filters.sendable && bigintOk offset && bigintOk limit then
        (.ok (page offset limit (newest ties
          ((ownedTasks (l.projects w) (l.tasks w) owner).filter (filters.admits env)))),
          l.begin w, w)
      else (.error .dbError, l, w)
  | .insertTask id projectId fields, (l, w) =>
      let row := newTask (l.clock w) id projectId fields
      if acceptsTask (l.projects w) (l.tasks w) row then
        (.ok (), (l.begin w).write (.insertTask row), w)
      else (.error .dbError, l.begin w, w)
  | .refreshTask id, (l, w) =>
      match (l.tasks w).find? fun t => t.id == id with
      | some t => (.ok t, l.begin w, w)
      | none => (.error .dbError, l.begin w, w)
  | .assignTask loaded fields, (l, w) =>
      (.ok (), { l with dirty := l.dirty ++ [.task loaded fields] }, w)
  | .softDeleteByProject projectId, (l, w) =>
      let ids := ((active (l.tasks w)).filter fun t => t.projectId == projectId).map (·.id)
      (.ok (), (l.begin w).write (.updateTasks ids [.deletedAt (some (l.clock w))] (l.clock w)), w)
  | .flush, (l, w) =>
      match l.flush w with
      | some l' => (.ok (), l', w)
      | none => (.error .dbError, l, w)
  | .datetimeNow, (l, w) => (.ok w.now, l, w)
  | .commit, (l, w) =>
      match l.flush w with
      | some l' => (.ok (), .empty, { w with projects := l'.projects w, tasks := l'.tasks w })
      | none => (.error .dbError, l, w)
  | .rollback, (_, w) => (.ok (), .empty, w)

end TaskMgtApp.Work
