import TaskMgtApp.Work.DeleteOnce

/-!
# Every request keeps to the rows of its user

A request looks a row of its user up, and what it then inserts, assigns or stamps is
that row, a row under it, or a new row of its own. So whatever the order of the
statements, what a session is about to commit are writes of its own user
(`Write.Own`), and each of them has the effect of a request served alone.
-/
namespace TaskMgtApp.Work

open TaskMgtApp.Common
open TaskMgtApp.Lib.Program TaskMgtApp.Lib.Program.Prog
open TaskMgtApp.Lib.Interleaving TaskMgtApp.Lib.Rows

/-! ## The moves of a request -/

/-- What a request has found, and what it has done about it. -/
inductive OwnPhase where
  | start
  /-- It has read rows and is not about one of them. -/
  | listed
  | project (p : Project)
  | task (t : Task)
  /-- The new row is inserted. -/
  | created
  /-- The tasks of the project are stamped. -/
  | cascaded (p : Project)
  /-- The clock is read to mark the object as deleted. -/
  | markingProject (p : Project) (now : Nat)
  | markingTask (t : Task) (now : Nat)
  /-- The object has its new attributes. -/
  | changed
  | committed
  | rolledBack

namespace OwnPhase

/-- Phases before the end. -/
def isOpen : OwnPhase → Bool
  | committed | rolledBack => false
  | _ => true

/-- The project that was found. -/
def project? : OwnPhase → Option Project
  | project p | cascaded p | markingProject p _ => some p
  | _ => none

/-- The task that was found. -/
def task? : OwnPhase → Option Task
  | task t | markingTask t _ => some t
  | _ => none

end OwnPhase

/-- A request that draws an id may commit when it has inserted its row. -/
def Request.MayCommit (r : Request) (φ : OwnPhase) : Prop :=
  (r.projectDraw = none ∧ r.taskDraw = none) ∨ φ = .created

/-- An assignment that neither gives a project away nor brings it back. -/
def ProjectAttr.keeps : ProjectAttr → Bool
  | .ownerId _ | .deletedAt none => false
  | _ => true

/-- The counts and the lists of the rows of `u`. -/
inductive Cmd.Lists (u : UUID) : Cmd → Prop
  | countProjects : Cmd.Lists u (.countProjects u)
  | selectProjects {ties : TieOrder} {offset limit : Nat} :
      Cmd.Lists u (.selectProjects u ties offset limit)
  | countTasks {filters : TaskFilters} : Cmd.Lists u (.countTasks u filters)
  | selectTasks {filters : TaskFilters} {ties : TieOrder} {offset limit : Nat} :
      Cmd.Lists u (.selectTasks u filters ties offset limit)

inductive OwnMove (u : UUID) (r : Request) : OwnPhase → Cmd → State → OwnPhase → Prop
  | list {φ : OwnPhase} {c : Cmd} {s : State} (hφ : φ = .start ∨ φ = .listed) (hc : c.Lists u) :
      OwnMove u r φ c s .listed
  | findProject {id : UUID} {p : Project} {l : Session} {w : World}
      (hp : (ownedProjects (l.projects w) u).find? (fun p => p.id == id) = some p) :
      OwnMove u r .start (.selectProject id u) (l, w) (.project p)
  | missProject {id : UUID} {s : State} : OwnMove u r .start (.selectProject id u) s .listed
  | findTask {id : UUID} {t : Task} {l : Session} {w : World}
      (ht : (ownedTasks (l.projects w) (l.tasks w) u).find? (fun t => t.id == id) = some t) :
      OwnMove u r .start (.selectTask id u) (l, w) (.task t)
  | missTask {id : UUID} {s : State} : OwnMove u r .start (.selectTask id u) s .listed
  | insertProject {id : UUID} {name description : Option String} {l : Session} {w : World}
      (hdraw : r.projectDraw = some id)
      (haccepts : acceptsProject (l.projects w) (newProject (l.clock w) id u name description)) :
      OwnMove u r .start (.insertProject id u name description) (l, w) .created
  | refuseProject {id : UUID} {name description : Option String} {l : Session} {w : World}
      (hdraw : r.projectDraw = some id)
      (haccepts : ¬ acceptsProject (l.projects w) (newProject (l.clock w) id u name description)) :
      OwnMove u r .start (.insertProject id u name description) (l, w) .listed
  | insertTask {p : Project} {id : UUID} {fields : List TaskAttr} {l : Session} {w : World}
      (hdraw : r.taskDraw = some id) (hfields : ∀ a ∈ fields, a.updatable)
      (haccepts : acceptsTask (l.projects w) (l.tasks w) (newTask (l.clock w) id p.id fields)) :
      OwnMove u r (.project p) (.insertTask id p.id fields) (l, w) .created
  | refuseTask {p : Project} {id : UUID} {fields : List TaskAttr} {l : Session} {w : World}
      (hdraw : r.taskDraw = some id) (hfields : ∀ a ∈ fields, a.updatable)
      (haccepts : ¬ acceptsTask (l.projects w) (l.tasks w) (newTask (l.clock w) id p.id fields)) :
      OwnMove u r (.project p) (.insertTask id p.id fields) (l, w) .listed
  | rereadProject {id : UUID} {s : State} (hdraw : r.projectDraw = some id) :
      OwnMove u r .created (.refreshProject id) s .created
  | rereadTask {id : UUID} {s : State} (hdraw : r.taskDraw = some id) :
      OwnMove u r .created (.refreshTask id) s .created
  | assignProject {p : Project} {fields : List ProjectAttr} {s : State}
      (hfields : ∀ a ∈ fields, a.updatable) :
      OwnMove u r (.project p) (.assignProject p fields) s .changed
  | assignTask {t : Task} {fields : List TaskAttr} {s : State}
      (hfields : ∀ a ∈ fields, a.updatable) : OwnMove u r (.task t) (.assignTask t fields) s .changed
  | cascade {p : Project} {s : State} (hr : r.deletes = some p.id) :
      OwnMove u r (.project p) (.softDeleteByProject p.id) s (.cascaded p)
  | clockProject {p : Project} {l : Session} {w : World} :
      OwnMove u r (.cascaded p) .datetimeNow (l, w) (.markingProject p w.now)
  | clockTask {t : Task} {l : Session} {w : World} :
      OwnMove u r (.task t) .datetimeNow (l, w) (.markingTask t w.now)
  | markProject {p : Project} {n : Nat} {s : State} :
      OwnMove u r (.markingProject p n) (.assignProject p [.deletedAt (some n)]) s .changed
  | markTask {t : Task} {n : Nat} {s : State} :
      OwnMove u r (.markingTask t n) (.assignTask t [.deletedAt (some n)]) s .changed
  | flush {φ : OwnPhase} {s : State} (hφ : φ.isOpen) : OwnMove u r φ .flush s φ
  | commit {φ : OwnPhase} {l l' : Session} {w : World} (hφ : φ.isOpen) (hr : r.MayCommit φ)
      (hl : l.flush w = some l') : OwnMove u r φ .commit (l, w) .committed
  | refuse {φ : OwnPhase} {l : Session} {w : World} (hφ : φ.isOpen) (hl : l.flush w = none) :
      OwnMove u r φ .commit (l, w) φ
  | rollback {φ : OwnPhase} {s : State} (hφ : φ.isOpen) : OwnMove u r φ .rollback s .rolledBack

/-- A request succeeds if it has committed. -/
def OwnFinal {α : Type} : OwnPhase → Except Exc α → Prop
  | φ, .ok _ => φ = .committed
  | φ, .error _ => φ = .rolledBack

/-- The body of an endpoint ends before that. -/
def OwnOpen {α : Type} (r : Request) : OwnPhase → Except Exc α → Prop
  | φ, .ok _ => φ.isOpen ∧ r.MayCommit φ
  | φ, .error _ => φ.isOpen

/-- The body and the commit, before the rollback of a request that fails. -/
def OwnCommitted {α : Type} : OwnPhase → Except Exc α → Prop
  | φ, .ok _ => φ = .committed
  | φ, .error _ => φ.isOpen

/-! ## Every request makes these moves -/

section Obeys
variable {env : Env} {u : UUID} {r : Request}

theorem own_getDb {α : Type} {φ : OwnPhase} {body : WorkM α}
    (hbody : Obeys (exec env) (OwnMove u r) (OwnOpen r) φ body) :
    Obeys (exec env) (OwnMove u r) OwnFinal φ (getDb body) := by
  unfold getDb
  refine Obeys.catch (F := OwnCommitted) ?_ (fun φ a h => h) ?_
  · refine hbody.bind ?_ (fun φ e h => h)
    intro φ a hφ s
    obtain ⟨l, w⟩ := s
    cases hl : l.flush w with
    | none =>
      refine ⟨φ, .refuse hφ.1 hl, ?_⟩
      simp only [exec, hl]
      exact hφ.1
    | some l' =>
      refine ⟨.committed, .commit hφ.1 hφ.2 hl, ?_⟩
      simp only [exec, hl]
      exact rfl
  · intro φ e hφ s
    exact ⟨.rolledBack, .rollback hφ, rfl⟩

theorem own_respond {φ : OwnPhase} (hφ : φ.isOpen) (hr : r.MayCommit φ) (reply : Option Reply) :
    Obeys (exec env) (OwnMove u r) (OwnOpen r) φ (respond reply) := by
  cases reply with
  | none => exact hφ
  | some reply => exact ⟨hφ, hr⟩

theorem ProjectAttr.keeps_of_updatable {a : ProjectAttr} (h : a.updatable) : a.keeps := by
  cases a <;> first | rfl | cases h

/-- Looking a project up, and going on with what was found. -/
theorem own_projectGet {α : Type} {F : OwnPhase → Except Exc α → Prop} (id : UUID)
    {f : Project → WorkM α}
    (hf : ∀ p, p.id = id → Obeys (exec env) (OwnMove u r) F (.project p) (f p))
    (hmiss : F .listed (.error (.projectNotFoundError "Project not found."))) :
    Obeys (exec env) (OwnMove u r) F .start (ProjectService.get id u >>= f) := by
  unfold ProjectService.get ProjectRepository.getByIdForOwner
  intro s
  obtain ⟨l, w⟩ := s
  cases hp : (ownedProjects (l.projects w) u).find? fun p => p.id == id with
  | none =>
    refine ⟨.listed, .missProject, ?_⟩
    simp only [exec, hp]
    exact hmiss
  | some p =>
    have hid : p.id = id := by simpa using List.find?_some hp
    refine ⟨.project p, .findProject hp, ?_⟩
    simp only [exec, hp]
    exact hf p hid

theorem own_taskGet {α : Type} {F : OwnPhase → Except Exc α → Prop} (id : UUID)
    {f : Task → WorkM α} (hf : ∀ t, Obeys (exec env) (OwnMove u r) F (.task t) (f t))
    (hmiss : F .listed (.error (.taskNotFoundError "Task not found."))) :
    Obeys (exec env) (OwnMove u r) F .start (TaskService.get id u >>= f) := by
  unfold TaskService.get TaskRepository.getByIdForOwner
  intro s
  obtain ⟨l, w⟩ := s
  cases ht : (ownedTasks (l.projects w) (l.tasks w) u).find? fun t => t.id == id with
  | none =>
    refine ⟨.listed, .missTask, ?_⟩
    simp only [exec, ht]
    exact hmiss
  | some t =>
    refine ⟨.task t, .findTask ht, ?_⟩
    simp only [exec, ht]
    exact hf t

/-- Two statements that list rows. -/
theorem own_lists {α : Type} {c d : Cmd} (hc : c.Lists u) (hd : d.Lists u)
    {f : c.Val → d.Val → α} :
    Obeys (exec env) (OwnMove u r) (fun φ _ => φ = .listed) .start (do
      let a ← execute c
      let b ← execute d
      return f a b) := by
  intro s
  refine ⟨.listed, .list (.inl rfl) hc, ?_⟩
  cases (exec env c s).1 with
  | error e => exact rfl
  | ok a =>
    intro s
    refine ⟨.listed, .list (.inr rfl) hd, ?_⟩
    cases (exec env d s).1 with
    | error e => exact rfl
    | ok b => exact rfl

/-- The object is marked; what is left is the flush. -/
theorem own_marked {φ : OwnPhase} {c : Cmd} (hc : ∀ s, OwnMove u r φ c s .changed) (hr : r.MayCommit .changed) :
    Obeys (exec env) (OwnMove u r) (OwnOpen r) φ (do
      let _ ← execute c
      execute .flush : WorkM Unit) := by
  intro s
  refine ⟨.changed, hc s, ?_⟩
  cases (exec env c s).1 with
  | error e => exact rfl
  | ok _ =>
    intro s
    refine ⟨.changed, .flush rfl, ?_⟩
    cases (exec env .flush s).1 with
    | error e => exact rfl
    | ok _ => exact ⟨rfl, hr⟩

theorem own_createProject (payload : ProjectCreate) (uuid4 : UUID) :
    Obeys (exec env) (OwnMove u (.createProject payload uuid4))
      (OwnOpen (.createProject payload uuid4)) .start
      ((Request.createProject payload uuid4).endpoint u) := by
  intro s
  obtain ⟨l, w⟩ := s
  by_cases haccepts : acceptsProject (l.projects w)
      (newProject (l.clock w) uuid4 u (some payload.name.val) payload.description) = true
  · refine ⟨.created, .insertProject rfl haccepts, ?_⟩
    simp only [exec, haccepts, if_true]
    intro s
    refine ⟨.created, .rereadProject rfl, ?_⟩
    cases (exec env (.refreshProject uuid4) s).1 with
    | error e => exact rfl
    | ok p => exact own_respond rfl (.inr rfl) _
  · refine ⟨.listed, .refuseProject rfl haccepts, ?_⟩
    simp only [exec, haccepts]
    exact rfl

theorem own_createTask (payload : TaskCreate) (uuid4 : UUID) :
    Obeys (exec env) (OwnMove u (.createTask payload uuid4)) (OwnOpen (.createTask payload uuid4))
      .start ((Request.createTask payload uuid4).endpoint u) := by
  simp only [Request.endpoint, TaskService.create, ProjectRepository.getByIdForOwner, perform_bind,
    call_bind, obeys_call]
  rintro ⟨l, w⟩
  cases hp : (ownedProjects (l.projects w) u).find? fun p => p.id == payload.projectId with
  | none =>
    refine ⟨.listed, .missProject, ?_⟩
    simp only [exec, hp]
    exact rfl
  | some p =>
    have hid : payload.projectId = p.id := by
      have hfound := List.find?_some hp
      exact (beq_iff_eq.mp hfound).symm
    refine ⟨.project p, .findProject hp, ?_⟩
    simp only [exec, hp, done_ok_bind]
    rw [hid]
    simp only [TaskRepository.add, perform_bind, call_bind, obeys_call]
    rintro ⟨l, w⟩
    by_cases hrow : acceptsTask (l.projects w) (l.tasks w)
        (newTask (l.clock w) uuid4 p.id payload.modelDump) = true
    · refine ⟨.created, .insertTask rfl payload.modelDump_updatable hrow, ?_⟩
      simp only [exec, hrow, if_true]
      intro s
      refine ⟨.created, .rereadTask rfl, ?_⟩
      cases (exec env (.refreshTask uuid4) s).1 with
      | error e => exact rfl
      | ok task => exact own_respond rfl (.inr rfl) _
    · refine ⟨.listed, .refuseTask rfl payload.modelDump_updatable hrow, ?_⟩
      simp only [exec, hrow]
      exact rfl

theorem own_endpoint (r : Request) :
    Obeys (exec env) (OwnMove u r) (OwnOpen r) .start (r.endpoint u) := by
  cases r with
  | createProject payload uuid4 => exact own_createProject payload uuid4
  | createTask payload uuid4 => exact own_createTask payload uuid4
  | listProjects pageParams ties =>
    refine (own_lists .countProjects .selectProjects).bind ?_ (fun φ e hφ => ?_)
    · rintro φ a rfl
      exact own_respond rfl (.inl ⟨rfl, rfl⟩) _
    · obtain rfl := hφ
      rfl
  | listTasks pageParams filters ties =>
    refine (own_lists .countTasks .selectTasks).bind ?_ (fun φ e hφ => ?_)
    · rintro φ a rfl
      exact own_respond rfl (.inl ⟨rfl, rfl⟩) _
    · obtain rfl := hφ
      rfl
  | getProject id =>
    exact own_projectGet id (fun p _ => own_respond rfl (.inl ⟨rfl, rfl⟩) _) rfl
  | getTask id => exact own_taskGet id (fun t => own_respond rfl (.inl ⟨rfl, rfl⟩) _) rfl
  | updateProject id payload =>
    refine Obeys.bind (F := OwnOpen _) ?_ (fun φ a hφ => own_respond hφ.1 hφ.2 _) (fun φ e hφ => hφ)
    refine own_projectGet id (fun p _ s => ?_) rfl
    exact ⟨.changed, .assignProject payload.modelDump_updatable, rfl, .inl ⟨rfl, rfl⟩⟩
  | updateTask id payload =>
    refine Obeys.bind (F := OwnOpen _) ?_ (fun φ a hφ => own_respond hφ.1 hφ.2 _) (fun φ e hφ => hφ)
    refine own_taskGet id (fun t s => ?_) rfl
    exact ⟨.changed, .assignTask payload.modelDump_updatable, rfl, .inl ⟨rfl, rfl⟩⟩
  | deleteProject id =>
    refine Obeys.bind (F := OwnOpen _) ?_ (fun φ a hφ => hφ) (fun φ e hφ => hφ)
    refine own_projectGet id (fun p hid s => ?_) rfl
    refine ⟨.cascaded p, .cascade (congrArg some hid.symm), fun s => ?_⟩
    obtain ⟨l', w'⟩ := s
    refine ⟨.markingProject p w'.now, .clockProject, ?_⟩
    exact own_marked (fun s => .markProject) (.inl ⟨rfl, rfl⟩)
  | deleteTask id =>
    refine Obeys.bind (F := OwnOpen _) ?_ (fun φ a hφ => hφ) (fun φ e hφ => hφ)
    refine own_taskGet id (fun t s => ?_) rfl
    obtain ⟨l, w⟩ := s
    refine ⟨.markingTask t w.now, .clockTask, ?_⟩
    exact own_marked (fun s => .markTask) (.inl ⟨rfl, rfl⟩)

theorem own_obeys {ι : Type} (env : Env) (w : World) (requests : ι → UUID × Request) :
    AllObey (machine env) (fun i => OwnMove (requests i).1 (requests i).2) (fun _ => OwnFinal)
      (fun _ => .start) (beside w requests) :=
  fun i => own_getDb (own_endpoint (requests i).2)

end Obeys

/-! ## Writes of a user -/

/-- Whether the id is that of a task under a project of the user, deleted or not. -/
def World.ownsTask (w : World) (user taskId : UUID) : Bool :=
  w.tasks.any fun t => t.id == taskId && w.owns user t.projectId

theorem World.ownsTask_iff {w : World} {user taskId : UUID} :
    w.ownsTask user taskId ↔ ∃ t ∈ w.tasks, t.id = taskId ∧ w.owns user t.projectId := by
  simp [World.ownsTask]

theorem ownsTask_of_mem {w : World} {u : UUID} {t : Task} (h : t ∈ ownedTasks w.projects w.tasks u) :
    w.ownsTask u t.id := by
  obtain ⟨hmem, -, p, hp, hid⟩ := mem_ownedTasks.mp h
  exact World.ownsTask_iff.mpr ⟨t, hmem, rfl, hid ▸ owns_of_mem hp⟩

/-- A write of the request `r` of `u`: its new row, or other attributes of rows of `u`. -/
def Write.Own (w : World) (u : UUID) (r : Request) : Write → Prop
  | insertProject row =>
      row.storable ∧ row.deletedAt = none ∧ row.ownerId = u ∧ r.projectDraw = some row.id
  | updateProject id fields _ => w.owns u id ∧ ∀ a ∈ fields, a.storable ∧ a.keeps
  | insertTask row =>
      row.storable w.projects ∧ row.deletedAt = none ∧ w.owns u row.projectId ∧
        r.taskDraw = some row.id
  | updateTasks ids fields _ =>
      (∀ id ∈ ids, w.ownsTask u id) ∧ ∀ a ∈ fields, a.storable w.projects ∧ a.keeps

/-- An assignment to an object of `u`. -/
def Dirty.Own (w : World) (u : UUID) : Dirty → Prop
  | project loaded fields => w.owns u loaded.id ∧ ∀ a ∈ fields, a.keeps
  | task loaded fields => w.ownsTask u loaded.id ∧ ∀ a ∈ fields, a.keeps

/-- The draw of the request is the id of no row. -/
structure Request.FreshIn (r : Request) (w : World) : Prop where
  project : ∀ p ∈ w.projects, r.projectDraw ≠ some p.id
  task : ∀ t ∈ w.tasks, r.taskDraw ≠ some t.id

/-- The rows of `w` are there in `w'`, with their ids, owners and parents. -/
structure World.Grows (w w' : World) : Prop where
  projects : ∀ p ∈ w.projects, ∃ p' ∈ w'.projects, p'.id = p.id ∧ p'.ownerId = p.ownerId
  tasks : ∀ t ∈ w.tasks, ∃ t' ∈ w'.tasks, t'.id = t.id ∧ t'.projectId = t.projectId

section Writes
variable {w w' w'' : World} {u : UUID} {r r' : Request} {x : Write} {y : Dirty}

theorem World.Grows.refl (w : World) : w.Grows w :=
  ⟨fun p hp => ⟨p, hp, rfl, rfl⟩, fun t ht => ⟨t, ht, rfl, rfl⟩⟩

theorem World.Grows.trans (h : w.Grows w') (h' : w'.Grows w'') : w.Grows w'' where
  projects p hp := by
    obtain ⟨p', hp', hid, howner⟩ := h.projects p hp
    obtain ⟨p'', hp'', hid', howner'⟩ := h'.projects p' hp'
    exact ⟨p'', hp'', hid'.trans hid, howner'.trans howner⟩
  tasks t ht := by
    obtain ⟨t', ht', hid, hparent⟩ := h.tasks t ht
    obtain ⟨t'', ht'', hid', hparent'⟩ := h'.tasks t' ht'
    exact ⟨t'', ht'', hid'.trans hid, hparent'.trans hparent⟩

theorem World.Grows.owns (h : w.Grows w') {id : UUID} (howns : w.owns u id) : w'.owns u id := by
  obtain ⟨p, hp, hid, howner⟩ := World.owns_iff.mp howns
  obtain ⟨p', hp', hid', howner'⟩ := h.projects p hp
  exact World.owns_iff.mpr ⟨p', hp', hid'.trans hid, howner'.trans howner⟩

theorem World.Grows.ownsTask (h : w.Grows w') {id : UUID} (howns : w.ownsTask u id) :
    w'.ownsTask u id := by
  obtain ⟨t, ht, hid, hparent⟩ := World.ownsTask_iff.mp howns
  obtain ⟨t', ht', hid', hparent'⟩ := h.tasks t ht
  exact World.ownsTask_iff.mpr ⟨t', ht', hid'.trans hid, hparent' ▸ h.owns hparent⟩

/-- Whether a value can be stored depends on the projects for the parent only. -/
theorem TaskAttr.storable_of_keeps {a : TaskAttr} (hkeeps : a.keeps) {rows rows' : List Project}
    (h : a.storable rows) : a.storable rows' := by
  cases a with
  | projectId v => cases hkeeps
  | _ => exact h

theorem Project.setattrs_keep {fields : List ProjectAttr} (h : ∀ a ∈ fields, a.keeps) (p : Project) :
    (p.setattrs fields).ownerId = p.ownerId ∧
      ((p.setattrs fields).deletedAt = none → p.deletedAt = none) := by
  induction fields generalizing p with
  | nil => exact ⟨rfl, fun hd => hd⟩
  | cons a as ih =>
    obtain ⟨ha, has⟩ := List.forall_mem_cons.mp h
    obtain ⟨howner, hdeleted⟩ := ih has (p.setattr a)
    cases a with
    | ownerId v => cases ha
    | name v => exact ⟨howner, hdeleted⟩
    | description v => exact ⟨howner, hdeleted⟩
    | deletedAt v =>
      cases v with
      | none => cases ha
      | some n => exact ⟨howner, fun hd => by cases hdeleted hd⟩

theorem Write.Own.grows (h : x.Own w u r) (hgrows : w.Grows w') : x.Own w' u r := by
  cases x with
  | insertProject row => exact h
  | updateProject id fields n => exact ⟨hgrows.owns h.1, h.2⟩
  | insertTask row =>
    obtain ⟨hstorable, hactive, howns, hdraw⟩ := h
    refine ⟨Task.storable_mono (fun p hp => ?_) hstorable, hactive, hgrows.owns howns, hdraw⟩
    obtain ⟨p', hp', hid, -⟩ := hgrows.projects p hp
    exact ⟨p', hp', hid⟩
  | updateTasks ids fields n =>
    refine ⟨fun id hid => hgrows.ownsTask (h.1 id hid), fun a ha => ?_⟩
    obtain ⟨hstorable, hkeeps⟩ := h.2 a ha
    exact ⟨TaskAttr.storable_of_keeps hkeeps hstorable, hkeeps⟩

theorem Dirty.Own.grows (h : y.Own w u) (hgrows : w.Grows w') : y.Own w' u := by
  cases y with
  | project loaded fields => exact ⟨hgrows.owns h.1, h.2⟩
  | task loaded fields => exact ⟨hgrows.ownsTask h.1, h.2⟩

/-- A write of its user does what a request served alone may do. -/
theorem Write.Own.effect (hvalid : w.Valid) (h : x.Own w u r) (hfresh : x.isUpdate ∨ r.FreshIn w) :
    Effect w u r (w.write x) := by
  cases x with
  | insertProject row =>
    obtain ⟨hstorable, -, howner, hdraw⟩ := h
    have hnew := (hfresh.resolve_left id).project
    refine .insertProject row ?_ howner hdraw
    simp only [acceptsProject, hstorable, Bool.and_true, List.all_eq_true, decide_eq_true_eq]
    exact fun p hp hid => hnew p hp (hdraw.trans (congrArg some hid.symm))
  | insertTask row =>
    obtain ⟨hstorable, -, howns, hdraw⟩ := h
    have hnew := (hfresh.resolve_left id).task
    refine .insertTask row ?_ howns hdraw
    simp only [acceptsTask, hstorable, Bool.and_true, List.all_eq_true, decide_eq_true_eq]
    exact fun t ht hid => hnew t ht (hdraw.trans (congrArg some hid.symm))
  | updateProject projectId fields n =>
    obtain ⟨howns, hfields⟩ := h
    obtain ⟨p, hp, rfl, howner⟩ := World.owns_iff.mp howns
    have hchange : Effect w u r _ := .update _ id
      (fun q hq => changesProject hvalid hp howner (fun a ha => (hfields a ha).1)
        (Project.setattrs_keep (fun a ha => (hfields a ha).2) p).1 n hq)
      (fun t ht => .refl (hvalid.taskRows t ht))
    rw [List.map_id] at hchange
    exact hchange
  | updateTasks ids fields n =>
    obtain ⟨hids, hfields⟩ := h
    have hown : ∀ t ∈ w.tasks, t.id ∈ ids → w.owns u t.projectId := by
      intro t ht hid
      obtain ⟨t', ht', hid', howns⟩ := World.ownsTask_iff.mp (hids t.id hid)
      rwa [hvalid.taskIds.eq_of_key ht' ht hid'] at howns
    have hchange : Effect w u r _ := .update id _ (fun p hp => .refl (hvalid.projectRows p hp))
      (fun t ht => changesTask hvalid hown (fun a ha => (hfields a ha).1)
        (fun s => (Task.setattrs_keep (fun a ha => (hfields a ha).2) s).1) n ht)
    rw [List.map_id] at hchange
    exact hchange

theorem Effect.grows (h : Effect w u r w') : w.Grows w' := by
  cases h with
  | insertProject row =>
    exact ⟨fun p hp => ⟨p, List.mem_append_left _ hp, rfl, rfl⟩, (World.Grows.refl w).tasks⟩
  | insertTask row =>
    exact ⟨(World.Grows.refl w).projects, fun t ht => ⟨t, List.mem_append_left _ ht, rfl, rfl⟩⟩
  | update g h hg hh =>
    exact ⟨fun p hp => ⟨g p, List.mem_map_of_mem hp, (hg p hp).id, (hg p hp).owner⟩,
      fun t ht => ⟨h t, List.mem_map_of_mem ht, (hh t ht).id, (hh t ht).parent⟩⟩

/-- No two requests draw one id. -/
def Request.Apart (r r' : Request) : Prop :=
  (∀ id, r.projectDraw = some id → r'.projectDraw ≠ some id) ∧
    ∀ id, r.taskDraw = some id → r'.taskDraw ≠ some id

theorem Effect.freshIn (h : Effect w u r w') (hapart : r.Apart r') (hfresh : r'.FreshIn w) :
    r'.FreshIn w' := by
  cases h with
  | insertProject row haccepts howner hdraw =>
    refine ⟨fun p hp => ?_, hfresh.task⟩
    rcases List.mem_append.mp hp with hp | hp
    · exact hfresh.project p hp
    · obtain rfl := List.mem_singleton.mp hp
      exact hapart.1 _ hdraw
  | insertTask row haccepts howner hdraw =>
    refine ⟨hfresh.project, fun t ht => ?_⟩
    rcases List.mem_append.mp ht with ht | ht
    · exact hfresh.task t ht
    · obtain rfl := List.mem_singleton.mp ht
      exact hapart.2 _ hdraw
  | update g h hg hh =>
    constructor
    · intro p' hp'
      obtain ⟨p, hp, rfl⟩ := List.mem_map.mp hp'
      rw [(hg p hp).id]
      exact hfresh.project p hp
    · intro t' ht'
      obtain ⟨t, ht, rfl⟩ := List.mem_map.mp ht'
      rw [(hh t ht).id]
      exact hfresh.task t ht

end Writes

end TaskMgtApp.Work
