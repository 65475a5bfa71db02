import TaskMgtApp.Work.Patches
import TaskMgtApp.Work.Pages

/-!
# Create, then read

What a create has been given comes back from the next GET, and the list of the owner
is longer by one. The lengths in the schemas are those of the columns; the character
that PostgreSQL does not store is not checked before the INSERT.
-/
namespace TaskMgtApp.Work

open TaskMgtApp.Common
open TaskMgtApp.Lib.Rows TaskMgtApp.Lib.Listing

/-! ## What comes back -/

/-- The fields of the request, as the response shows them. -/
structure ProjectCreate.Shown (payload : ProjectCreate) (p : ProjectRead) : Prop where
  name : p.name = payload.name.val
  description : p.description = payload.description

structure TaskCreate.Shown (payload : TaskCreate) (t : TaskRead) : Prop where
  projectId : t.projectId = payload.projectId
  title : t.title = payload.title.val
  description : t.description = payload.description
  status : t.status = payload.status
  priority : t.priority = payload.priority
  dueDate : t.dueDate = payload.dueDate

/-- The `total` of an answer to a list request. -/
def total : Except Exc Reply → Option Nat
  | .ok (.projects _ total _ _) | .ok (.tasks _ total _ _) => some total
  | _ => none

/-- The create succeeds, a GET at whatever later time shows what was submitted, and every
page of the list then reports one more. -/
def ProjectRoundTrip (env : Env) (w : World) (u : UUID) (payload : ProjectCreate) (uuid4 : UUID)
    (later : Nat) : Prop :=
  ∃ created w' p, serve env w u (.createProject payload uuid4) = (.ok (.project created), w') ∧
    (serve env { w' with now := later } u (.getProject created.id)).1 = .ok (.project p) ∧
    payload.Shown p ∧ ∀ pp ties,
      total (serve env { w' with now := later } u (.listProjects pp ties)).1 =
        (total (serve env w u (.listProjects pp ties)).1).map (· + 1)

def TaskRoundTrip (env : Env) (w : World) (u : UUID) (payload : TaskCreate) (uuid4 : UUID)
    (later : Nat) : Prop :=
  ∃ created w' t, serve env w u (.createTask payload uuid4) = (.ok (.task created), w') ∧
    (serve env { w' with now := later } u (.getTask created.id)).1 = .ok (.task t) ∧
    payload.Shown t ∧ ∀ pp ties,
      total (serve env { w' with now := later } u (.listTasks pp noFilters ties)).1 =
        (total (serve env w u (.listTasks pp noFilters ties)).1).map (· + 1)

/-! ## A row behind the others -/

section Rows
variable (env : Env) {w : World} {u uuid4 : UUID}

theorem total_listProjects (hvalid : w.Valid) (pp : PageParams) (ties : TieOrder) :
    total (serve env w u (.listProjects pp ties)).1 =
      if bigintOk pp.offset then some (ownedProjects w.projects u).length else none := by
  rw [serve_listProjects]
  split
  · rw [page_projects u hvalid.filled]
    rfl
  · rfl

theorem total_listTasks (hvalid : w.Valid) (pp : PageParams) (filters : TaskFilters)
    (ties : TieOrder) :
    total (serve env w u (.listTasks pp filters ties)).1 =
      if filters.sendable && bigintOk pp.offset then some (w.tasksFor env u filters).length
      else none := by
  rw [serve_listTasks]
  split
  · rw [page_tasks env u hvalid.filled]
    rfl
  · rfl

theorem ownedProjects_append (rows : List Project) {row : Project} (hactive : row.deletedAt = none)
    (howner : row.ownerId = u) : ownedProjects (rows ++ [row]) u = ownedProjects rows u ++ [row] := by
  simp [ownedProjects, active, Entity.deletedAt, hactive, howner]

theorem ownedTasks_append (projects : List Project) (rows : List Task) {row : Task} {p : Project}
    (hactive : row.deletedAt = none) (hp : p ∈ ownedProjects projects u) (hid : p.id = row.projectId) :
    ownedTasks projects (rows ++ [row]) u = ownedTasks projects rows u ++ [row] := by
  have hparent : (ownedProjects projects u).any (fun p => p.id == row.projectId) = true :=
    List.any_eq_true.mpr ⟨p, hp, beq_iff_eq.mpr hid⟩
  simp [ownedTasks, active, Entity.deletedAt, hactive, hparent]

/-- A page reports one more when there is one more row. -/
theorem total_grows {sendable : Bool} {n n' : Nat} (h : n' = n + 1) :
    (if sendable then some n' else none) = (if sendable then some n else none).map (· + 1) := by
  rw [h]
  split <;> rfl

end Rows

section RoundTrips
variable (env : Env) {w : World} {u uuid4 : UUID}

/-- What a create with a new `uuid4` does. -/
theorem serve_newProject (hfresh : ∀ p ∈ w.projects, p.id ≠ uuid4) (payload : ProjectCreate) :
    serve env w u (.createProject payload uuid4) =
      let row := newProject w.now uuid4 u (some payload.name.val) payload.description
      if HardDelete.projectCreateOk payload then
        (.ok (.project row.read), { w with projects := w.projects ++ [row] })
      else (.error .dbError, w) := by
  rw [serve_createProject]
  dsimp only
  rw [acceptsProject_new w.now u hfresh payload]
  rfl

theorem serve_newTask (hfresh : ∀ t ∈ w.tasks, t.id ≠ uuid4) {payload : TaskCreate} {p : Project}
    (hp : w.project? payload.projectId u = some p) :
    serve env w u (.createTask payload uuid4) =
      let row := newTask w.now uuid4 payload.projectId payload.modelDump
      if HardDelete.taskCreateOk payload then
        (.ok (.task row.read), { w with tasks := w.tasks ++ [row] })
      else (.error .dbError, w) := by
  obtain ⟨hmem, -, -, hid⟩ := project?_spec hp
  rw [serve_createTask, hp]
  dsimp only
  rw [acceptsTask_new w.now hfresh hmem hid]
  rfl

theorem projectRoundTrip_iff (hvalid : w.Valid) (hfresh : ∀ p ∈ w.projects, p.id ≠ uuid4)
    (payload : ProjectCreate) (later : Nat) :
    ProjectRoundTrip env w u payload uuid4 later ↔ HardDelete.projectCreateOk payload := by
  have heffect : Effect w u (.createProject payload uuid4)
      (serve env w u (.createProject payload uuid4)).2 := serve_effect hvalid _
  have hvalid' := heffect.valid hvalid
  unfold ProjectRoundTrip
  rw [serve_newProject env hfresh] at *
  dsimp only at *
  by_cases hok : HardDelete.projectCreateOk payload
  · rw [if_pos hok] at *
    have hshown : payload.Shown
        (newProject w.now uuid4 u (some payload.name.val) payload.description).read := ⟨rfl, rfl⟩
    generalize hrow : newProject w.now uuid4 u (some payload.name.val) payload.description = row at *
    obtain ⟨hid, howner, hactive⟩ : row.id = uuid4 ∧ row.ownerId = u ∧ row.deletedAt = none := by
      rw [← hrow]
      exact ⟨rfl, rfl, rfl⟩
    have howned := ownedProjects_append w.projects hactive howner
    simp only [hok, iff_true]
    refine ⟨_, _, _, rfl, ?_, hshown, fun pp ties => ?_⟩
    · have hfound : World.project? ⟨later, w.projects ++ [row], w.tasks⟩ row.id u = some row := by
        unfold World.project?
        rw [howned]
        exact find?_append_fresh (fun p hp => hid ▸ hfresh p (mem_ownedProjects.mp hp).1) rfl
      have hget := serve_getProject env ⟨later, w.projects ++ [row], w.tasks⟩ u row.id
      rw [hfound] at hget
      exact (congrArg Prod.fst hget).trans (stored_project hvalid'.at hfound)
    · rw [total_listProjects env hvalid'.at, total_listProjects env hvalid]
      refine total_grows ?_
      rw [howned, List.length_append]
      rfl
  · rw [if_neg hok]
    simp only [hok, Bool.false_eq_true, iff_false]
    rintro ⟨created, w', p, heq, -⟩
    cases heq

theorem taskRoundTrip_iff (hvalid : w.Valid) (hfresh : ∀ t ∈ w.tasks, t.id ≠ uuid4)
    {payload : TaskCreate} {p : Project} (hp : w.project? payload.projectId u = some p)
    (later : Nat) :
    TaskRoundTrip env w u payload uuid4 later ↔ HardDelete.taskCreateOk payload := by
  have heffect : Effect w u (.createTask payload uuid4)
      (serve env w u (.createTask payload uuid4)).2 := serve_effect hvalid _
  have hvalid' := heffect.valid hvalid
  unfold TaskRoundTrip
  rw [serve_newTask env hfresh hp] at *
  dsimp only at *
  by_cases hok : HardDelete.taskCreateOk payload
  · rw [if_pos hok] at *
    have hshown : payload.Shown (newTask w.now uuid4 payload.projectId payload.modelDump).read :=
      ⟨rfl, rfl, rfl, rfl, rfl, rfl⟩
    obtain ⟨hparent, hactive⟩ := newTask_keeps w.now uuid4 payload.projectId payload
    have hid : (newTask w.now uuid4 payload.projectId payload.modelDump).id = uuid4 := newTask_id ..
    generalize newTask w.now uuid4 payload.projectId payload.modelDump = row at *
    have hpid : p.id = row.projectId := (project?_spec hp).2.2.2.trans hparent.symm
    have howned := ownedTasks_append w.projects w.tasks hactive (List.mem_of_find?_eq_some hp) hpid
    simp only [hok, iff_true]
    refine ⟨_, _, _, rfl, ?_, hshown, fun pp ties => ?_⟩
    · have hfound : World.task? ⟨later, w.projects, w.tasks ++ [row]⟩ row.id u = some row := by
        unfold World.task?
        rw [howned]
        exact find?_append_fresh (fun t ht => hid ▸ hfresh t (mem_ownedTasks.mp ht).1) rfl
      have hget := serve_getTask env ⟨later, w.projects, w.tasks ++ [row]⟩ u row.id
      rw [hfound] at hget
      exact (congrArg Prod.fst hget).trans (stored_task hvalid'.at hfound)
    · rw [total_listTasks env hvalid'.at, total_listTasks env hvalid]
      refine total_grows ?_
      unfold World.tasksFor
      dsimp only
      rw [howned, List.filter_append, List.length_append]
      rfl
  · rw [if_neg hok]
    simp only [hok, Bool.false_eq_true, iff_false]
    rintro ⟨created, w', t, heq, -⟩
    cases heq

end RoundTrips

/-- For every state, every payload that the schema of the create accepts, and for a task a
project that is visible to the caller: what is created comes back as submitted from a GET
at any later time, and the total of the list has grown by one, if and only if no text of
the payload has a NUL. -/
theorem create_read (env : Env) (w : World) (hvalid : w.Valid) (u uuid4 : UUID) (later : Nat) :
    (∀ payload : TaskCreate, (w.project? payload.projectId u).isSome →
      (∀ t ∈ w.tasks, t.id ≠ uuid4) →
      (TaskRoundTrip env w u payload uuid4 later ↔ HardDelete.taskCreateOk payload)) ∧
    (∀ payload : ProjectCreate, (∀ p ∈ w.projects, p.id ≠ uuid4) →
      (ProjectRoundTrip env w u payload uuid4 later ↔ HardDelete.projectCreateOk payload)) := by
  constructor
  · intro payload hproject hfresh
    obtain ⟨p, hp⟩ := Option.isSome_iff_exists.mp hproject
    exact taskRoundTrip_iff env hvalid hfresh hp later
  · intro payload hfresh
    exact projectRoundTrip_iff env hvalid hfresh payload later

/-! ### Two titles -/

/-- A task under the project of `oneTask`. -/
def titled (title : ShortText) : TaskCreate where
  projectId := plainUuid .one .zero
  title := title
  description := none
  status := .inProgress
  priority := .low
  dueDate := some 738000

theorem create_read_plain : TaskRoundTrip plainEnv oneTask (plainUuid .zero .zero)
    (titled ⟨"Draft", by decide⟩) (plainUuid .two .one) 200 :=
  ((create_read plainEnv oneTask (by decide +kernel) (plainUuid .zero .zero) (plainUuid .two .one)
    200).1 (titled ⟨"Draft", by decide⟩) (by decide +kernel) (by decide +kernel)).mpr
      (by decide +kernel)

/-- A title of one NUL: the schema takes it, and the INSERT fails. -/
theorem create_read_nul :
    HttpRequest.validate plainPydantic (.postTasks (some (.object [
      ("project_id", .string (plainUuid .one .zero).str), ("title", .string "\x00"),
      ("status", .string "in_progress"), ("priority", .string "low")])) (plainUuid .two .one)) =
        some (.createTask { titled ⟨"\x00", by decide⟩ with dueDate := none } (plainUuid .two .one)) ∧
    ¬ TaskRoundTrip plainEnv oneTask (plainUuid .zero .zero)
      { titled ⟨"\x00", by decide⟩ with dueDate := none } (plainUuid .two .one) 200 := by
  refine ⟨rfl, ?_⟩
  rintro ⟨created, w', t, heq, -⟩
  have hresult : (serve plainEnv oneTask (plainUuid .zero .zero)
      (.createTask { titled ⟨"\x00", by decide⟩ with dueDate := none } (plainUuid .two .one))).1 =
        .error .dbError := by
    decide +kernel
  rw [heq] at hresult
  cases hresult

end TaskMgtApp.Work
