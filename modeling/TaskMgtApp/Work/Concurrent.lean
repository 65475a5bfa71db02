import TaskMgtApp.Lib.Interleaving
import TaskMgtApp.Work.Effects

/-!
# Project and task requests side by side

Any number of requests, each cut into its statements, over one database. What a
request does about tasks and the deletion of their project is said once, by the
moves between its phases; `beside_obeys` checks every request against them.
-/
namespace TaskMgtApp.Work

open TaskMgtApp.Common
open TaskMgtApp.Lib.Program TaskMgtApp.Lib.Program.Prog
open TaskMgtApp.Lib.Interleaving

/-! ## Requests side by side -/

def machine (env : Env) : Machine Cmd.Val Exc Session World Nat where
  exec := exec env
  drift seconds w := { w with now := w.now + seconds }

abbrev Threads (ι : Type) := Config Cmd.Val Exc Reply Session World ι

/-- Every request, with the user who sends it, before its first statement. -/
def beside {ι : Type} (w : World) (requests : ι → UUID × Request) : Threads ι where
  world := w
  threads i := ⟨.empty, (requests i).2.program (requests i).1⟩
  log := []

theorem world_issue {ι : Type} [DecidableEq ι] (env : Env) (c : Threads ι) (i : ι) (cmd : Cmd)
    (k : Except Exc cmd.Val → WorkM Reply) :
    (c.issue (machine env) i cmd k).world =
      (exec env cmd ((c.threads i).locals, c.world)).2.2 := rfl

/-! ## Phases -/

/-- How far a request has come with a task under a project, or with a deletion. -/
inductive Phase where
  | start
  | idle
  /-- A task create that has found its project. -/
  | seen (projectId : UUID)
  /-- A task create that has inserted its row. -/
  | inserted (projectId : UUID)
  /-- A project delete that has found its project. -/
  | found (projectId : UUID)
  /-- A project delete that has stamped the tasks. -/
  | cascaded (projectId : UUID)
  deriving DecidableEq

/-- The phases in which the body of a request may end. -/
def Phase.ends : Phase → Prop
  | start | idle | inserted _ | cascaded _ => True
  | seen _ | found _ => False

/-- An assignment that neither moves a task nor brings it back. -/
def TaskAttr.keeps : TaskAttr → Bool
  | .projectId _ | .deletedAt none => false
  | _ => true

/-- The project that the request deletes. -/
def Request.deletes : Request → Option UUID
  | .deleteProject projectId => some projectId
  | _ => none

/-- The project that the request creates a task in. -/
def Request.parent : Request → Option UUID
  | .createTask payload _ => some payload.projectId
  | _ => none

/-- A command that touches neither the tasks of a project nor the deletion of one. -/
def Cmd.quiet (r : Request) : Cmd → Prop
  | .insertProject id .. => r.projectDraw = some id
  | .assignProject _ fields => ∀ a ∈ fields, a.updatable
  | .assignTask _ fields => ∀ a ∈ fields, a.keeps
  | .insertTask .. | .softDeleteByProject _ | .commit => False
  | _ => True

/-- The moves of a request. -/
inductive Move (r : Request) : Phase → Cmd → State → Phase → Prop
  | quiet {φ : Phase} {c : Cmd} {s : State} (hφ : φ = .start ∨ φ = .idle) (hc : c.quiet r) :
      Move r φ c s .idle
  | see {payload : TaskCreate} {uuid4 owner : UUID} {l : Session} {w : World} {p : Project}
      (hr : r = .createTask payload uuid4)
      (hp : (ownedProjects (l.projects w) owner).find? (fun p => p.id == payload.projectId) = some p) :
      Move r .start (.selectProject payload.projectId owner) (l, w) (.seen payload.projectId)
  | insert {payload : TaskCreate} {uuid4 : UUID} {l : Session} {w : World}
      (hrow : acceptsTask (l.projects w) (l.tasks w)
        (newTask (l.clock w) uuid4 payload.projectId payload.modelDump) = true) :
      Move r (.seen payload.projectId)
        (.insertTask uuid4 payload.projectId payload.modelDump) (l, w) (.inserted payload.projectId)
  | insertRefused {payload : TaskCreate} {uuid4 : UUID} {l : Session} {w : World}
      (hrow : ¬ acceptsTask (l.projects w) (l.tasks w)
        (newTask (l.clock w) uuid4 payload.projectId payload.modelDump) = true) :
      Move r (.seen payload.projectId)
        (.insertTask uuid4 payload.projectId payload.modelDump) (l, w) .idle
  | reread {projectId id : UUID} {s : State} :
      Move r (.inserted projectId) (.refreshTask id) s (.inserted projectId)
  | find {projectId owner : UUID} {l : Session} {w : World} {p : Project}
      (hr : r = .deleteProject projectId)
      (hp : (ownedProjects (l.projects w) owner).find? (fun p => p.id == projectId) = some p) :
      Move r .start (.selectProject projectId owner) (l, w) (.found projectId)
  | cascade {projectId : UUID} {s : State} :
      Move r (.found projectId) (.softDeleteByProject projectId) s (.cascaded projectId)
  | clock {projectId : UUID} {s : State} :
      Move r (.cascaded projectId) .datetimeNow s (.cascaded projectId)
  | mark {p : Project} {n : Nat} {s : State} :
      Move r (.cascaded p.id) (.assignProject p [.deletedAt (some n)]) s (.cascaded p.id)
  | flush {projectId : UUID} {s : State} :
      Move r (.cascaded projectId) .flush s (.cascaded projectId)
  | commit {φ : Phase} {l l' : Session} {w : World} (hφ : φ.ends) (hl : l.flush w = some l') :
      Move r φ .commit (l, w) .idle
  | refuse {φ : Phase} {l : Session} {w : World} (hφ : φ.ends) (hl : l.flush w = none) :
      Move r φ .commit (l, w) φ
  | rollback {φ : Phase} {s : State} (hφ : φ.ends) : Move r φ .rollback s .idle

/-- A request ends where its body may end. -/
def Final {α : Type} (φ : Phase) (_ : Except Exc α) : Prop := φ.ends

/-! ## Every request keeps to its moves -/

section Obeys
variable {env : Env} {r : Request} {u : UUID}

theorem obeys_getDb {α : Type} {φ : Phase} {body : WorkM α}
    (hbody : Obeys (exec env) (Move r) Final φ body) :
    Obeys (exec env) (Move r) Final φ (getDb body) := by
  unfold getDb
  refine Obeys.catch (F := Final) ?_ (fun φ a h => h) ?_
  · refine hbody.bind ?_ (fun φ e h => h)
    rintro φ a hφ ⟨l, w⟩
    cases hl : l.flush w with
    | none =>
      refine ⟨φ, .refuse hφ hl, ?_⟩
      simp only [exec, hl]
      exact hφ
    | some l' =>
      refine ⟨.idle, .commit hφ hl, ?_⟩
      simp only [exec, hl]
      exact trivial
  · intro φ e hφ s
    exact ⟨.idle, .rollback hφ, trivial⟩

theorem respond_obeys {φ : Phase} (hφ : φ.ends) (reply : Option Reply) :
    Obeys (exec env) (Move r) Final φ (respond reply) := by
  cases reply <;> exact hφ

/-- A program of quiet commands. -/
theorem quiet_obeys {α : Type} {φ : Phase} (hφ : φ = .start ∨ φ = .idle) {p : WorkM α}
    (hp : p.Only (Cmd.quiet r)) : Obeys (exec env) (Move r) Final φ p := by
  induction p generalizing φ with
  | done o => obtain rfl | rfl := hφ <;> exact trivial
  | call c k ih =>
    intro s
    exact ⟨.idle, .quiet hφ hp.1, ih _ (.inr rfl) (hp.2 _)⟩

theorem only_respond (reply : Option Reply) : (respond reply).Only (Cmd.quiet r) := by
  cases reply <;> exact trivial

theorem only_projectGet (projectId : UUID) :
    (ProjectService.get projectId u).Only (Cmd.quiet r) := by
  refine Only.bind (only_perform.mpr trivial) ?_
  rintro (_ | p) <;> exact trivial

theorem only_taskGet (taskId : UUID) : (TaskService.get taskId u).Only (Cmd.quiet r) := by
  refine Only.bind (only_perform.mpr trivial) ?_
  rintro (_ | t) <;> exact trivial

theorem updatable_keeps {a : TaskAttr} (h : a.updatable) : a.keeps := by
  cases a <;> first | rfl | cases h

theorem createTask_obeys (payload : TaskCreate) (uuid4 : UUID) :
    Obeys (exec env) (Move (.createTask payload uuid4)) Final .start
      ((Request.createTask payload uuid4).endpoint u) := by
  simp only [Request.endpoint, TaskService.create, ProjectRepository.getByIdForOwner, perform_bind,
    call_bind, obeys_call]
  rintro ⟨l, w⟩
  cases hp : (ownedProjects (l.projects w) u).find? fun p => p.id == payload.projectId with
  | none =>
    refine ⟨.idle, .quiet (.inl rfl) trivial, ?_⟩
    simp only [exec, hp]
    exact trivial
  | some p =>
    refine ⟨_, .see rfl hp, ?_⟩
    simp only [exec, hp, done_ok_bind]
    simp only [TaskRepository.add, perform_bind, call_bind, obeys_call]
    rintro ⟨l, w⟩
    by_cases hrow : acceptsTask (l.projects w) (l.tasks w)
        (newTask (l.clock w) uuid4 payload.projectId payload.modelDump) = true
    · refine ⟨_, .insert hrow, ?_⟩
      simp only [exec, hrow, if_true]
      intro s
      refine ⟨_, .reread, ?_⟩
      cases (exec env (.refreshTask uuid4) s).1 with
      | error e => exact trivial
      | ok task => exact respond_obeys (show Phase.ends (.inserted payload.projectId) from trivial) _
    · refine ⟨_, .insertRefused hrow, ?_⟩
      simp only [exec, hrow]
      exact trivial

theorem deleteProject_obeys (projectId : UUID) :
    Obeys (exec env) (Move (.deleteProject projectId)) Final .start
      ((Request.deleteProject projectId).endpoint u) := by
  simp only [Request.endpoint, ProjectService.delete, ProjectService.get,
    ProjectRepository.getByIdForOwner, perform_bind, call_bind, obeys_call]
  rintro ⟨l, w⟩
  cases hp : (ownedProjects (l.projects w) u).find? fun p => p.id == projectId with
  | none =>
    refine ⟨.idle, .quiet (.inl rfl) trivial, ?_⟩
    simp only [exec, hp]
    exact trivial
  | some p =>
    obtain rfl : p.id = projectId := by simpa using List.find?_some hp
    refine ⟨_, .find rfl hp, ?_⟩
    simp only [exec, hp, pure_eq, done_ok_bind]
    simp only [TaskRepository.softDeleteByProject, ProjectRepository.delete, perform_bind,
      call_bind, obeys_call]
    rintro ⟨l, w⟩
    refine ⟨_, .cascade, ?_⟩
    rintro ⟨l, w⟩
    refine ⟨_, .clock, ?_⟩
    rintro ⟨l, w⟩
    refine ⟨_, .mark, ?_⟩
    intro s
    refine ⟨_, .flush, ?_⟩
    cases (exec env .flush s).1 with
    | error e => exact trivial
    | ok _ => exact trivial

theorem endpoint_obeys (r : Request) :
    Obeys (exec env) (Move r) Final .start (r.endpoint u) := by
  cases r with
  | createTask payload uuid4 => exact createTask_obeys payload uuid4
  | deleteProject projectId => exact deleteProject_obeys projectId
  | createProject payload uuid4 =>
    refine quiet_obeys (.inl rfl) (Only.bind ?_ fun _ => only_respond _)
    exact Only.bind (only_perform.mpr rfl) fun _ => only_perform.mpr trivial
  | listProjects pageParams ties =>
    refine quiet_obeys (.inl rfl) (Only.bind ?_ fun _ => only_respond _)
    exact Only.bind (only_perform.mpr trivial) fun _ =>
      Only.bind (only_perform.mpr trivial) fun _ => trivial
  | getProject projectId =>
    exact quiet_obeys (.inl rfl) (Only.bind (only_projectGet _) fun _ => only_respond _)
  | updateProject projectId payload =>
    refine quiet_obeys (.inl rfl) (Only.bind ?_ fun _ => only_respond _)
    exact Only.bind (only_projectGet _) fun _ =>
      Only.bind (only_perform.mpr payload.modelDump_updatable) fun _ => trivial
  | listTasks pageParams filters ties =>
    refine quiet_obeys (.inl rfl) (Only.bind ?_ fun _ => only_respond _)
    exact Only.bind (only_perform.mpr trivial) fun _ =>
      Only.bind (only_perform.mpr trivial) fun _ => trivial
  | getTask taskId =>
    exact quiet_obeys (.inl rfl) (Only.bind (only_taskGet _) fun _ => only_respond _)
  | updateTask taskId payload =>
    refine quiet_obeys (.inl rfl) (Only.bind ?_ fun _ => only_respond _)
    exact Only.bind (only_taskGet _) fun _ => Only.bind
      (only_perform.mpr fun a ha => updatable_keeps (payload.modelDump_updatable a ha)) fun _ => trivial
  | deleteTask taskId =>
    refine quiet_obeys (.inl rfl) (Only.bind ?_ fun _ => trivial)
    refine Only.bind (only_taskGet _) fun _ => Only.bind (only_perform.mpr trivial) fun _ =>
      Only.bind (only_perform.mpr ?_) fun _ => only_perform.mpr trivial
    simp [Cmd.quiet, TaskAttr.keeps]

theorem beside_obeys {ι : Type} (env : Env) (w : World) (requests : ι → UUID × Request) :
    AllObey (machine env) (fun i => Move (requests i).2) (fun _ => Final) (fun _ => .start)
      (beside w requests) :=
  fun i => obeys_getDb (endpoint_obeys (requests i).2)

end Obeys

end TaskMgtApp.Work
