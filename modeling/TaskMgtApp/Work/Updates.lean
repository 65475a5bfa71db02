import TaskMgtApp.Lib.Record
import TaskMgtApp.Work.HardDelete

/-!
# Rows as clients read them

A stored row always fits its response model. An update sends the columns whose
value has changed; the row it leaves is the one that a client expects who knows
only what the response model shows (`patchProject_eq`, `patchTask_eq`).
-/
namespace TaskMgtApp.Work

open TaskMgtApp.Common
open TaskMgtApp.Lib TaskMgtApp.Lib.Rows TaskMgtApp.Lib.Listing

/-! ## The response models -/

/-- The fields of a row that a client sees. -/
def Project.read (p : Project) : ProjectRead :=
  ⟨p.id, p.ownerId, p.name.getD "", p.description, p.createdAt, p.updatedAt⟩

def Task.read (t : Task) : TaskRead :=
  ⟨t.id, t.projectId, t.title.getD "", t.description, t.status.getD .todo, t.priority.getD .medium,
    t.dueDate, t.createdAt, t.updatedAt⟩

/-- The NOT NULL columns of a row have a value. -/
theorem Project.columns_some {p : Project} (h : p.storable) : ∃ name, p.name = some name := by
  cases hname : p.name with
  | none => simp [Project.storable, ProjectAttr.storable, hname] at h
  | some name => exact ⟨name, rfl⟩

theorem Task.columns_some {projects : List Project} {t : Task} (h : t.storable projects) :
    ∃ title status priority, t.title = some title ∧ t.status = some status ∧
      t.priority = some priority := by
  simp only [Task.storable, List.all_cons, TaskAttr.storable, Bool.and_eq_true] at h
  obtain ⟨-, htitle, -, hstatus, hpriority, -⟩ := h
  obtain ⟨status, hstatus⟩ := Option.isSome_iff_exists.mp hstatus
  obtain ⟨priority, hpriority⟩ := Option.isSome_iff_exists.mp hpriority
  cases ht : t.title with
  | none => simp [ht] at htitle
  | some title => exact ⟨title, status, priority, rfl, hstatus, hpriority⟩

/-- Whether the NOT NULL columns have a value. -/
def Project.filled (p : Project) : Bool := p.name.isSome
def Task.filled (t : Task) : Bool := t.title.isSome && t.status.isSome && t.priority.isSome

theorem Project.filled_of_storable {p : Project} (h : p.storable) : p.filled := by
  obtain ⟨name, hname⟩ := Project.columns_some h
  simp [Project.filled, hname]

theorem Task.filled_of_storable {projects : List Project} {t : Task} (h : t.storable projects) :
    t.filled := by
  obtain ⟨title, status, priority, htitle, hstatus, hpriority⟩ := Task.columns_some h
  simp [Task.filled, htitle, hstatus, hpriority]

/-- A row with its NOT NULL columns fits the response model. -/
theorem Project.modelValidate_filled {p : Project} (h : p.filled) :
    ProjectRead.modelValidate p = some p.read := by
  obtain ⟨name, hname⟩ := Option.isSome_iff_exists.mp h
  simp [ProjectRead.modelValidate, Project.read, hname]

theorem Task.modelValidate_filled {t : Task} (h : t.filled) :
    TaskRead.modelValidate t = some t.read := by
  simp only [Task.filled, Bool.and_eq_true] at h
  obtain ⟨⟨htitle, hstatus⟩, hpriority⟩ := h
  obtain ⟨title, htitle⟩ := Option.isSome_iff_exists.mp htitle
  obtain ⟨status, hstatus⟩ := Option.isSome_iff_exists.mp hstatus
  obtain ⟨priority, hpriority⟩ := Option.isSome_iff_exists.mp hpriority
  simp [TaskRead.modelValidate, Task.read, htitle, hstatus, hpriority]

/-- So every row of a table does. -/
theorem Project.modelValidate_eq {p : Project} (h : p.storable) :
    ProjectRead.modelValidate p = some p.read :=
  Project.modelValidate_filled (Project.filled_of_storable h)

theorem Task.modelValidate_eq {projects : List Project} {t : Task} (h : t.storable projects) :
    TaskRead.modelValidate t = some t.read :=
  Task.modelValidate_filled (Task.filled_of_storable h)

/-- Every row has its NOT NULL columns. -/
structure World.Filled (w : World) : Prop where
  projects : ∀ p ∈ w.projects, p.filled
  tasks : ∀ t ∈ w.tasks, t.filled

theorem World.Valid.filled {w : World} (h : w.Valid) : w.Filled where
  projects p hp := Project.filled_of_storable (h.projectRows p hp)
  tasks t ht := Task.filled_of_storable (h.taskRows t ht)

/-! ## Updates -/

/-- The column of an attribute. -/
def ProjectAttr.column : ProjectAttr → String
  | .ownerId _ => "owner_id"
  | .name _ => "name"
  | .description _ => "description"
  | .deletedAt _ => "deleted_at"

def TaskAttr.column : TaskAttr → String
  | .projectId _ => "project_id"
  | .title _ => "title"
  | .description _ => "description"
  | .status _ => "status"
  | .priority _ => "priority"
  | .dueDate _ => "due_date"
  | .deletedAt _ => "deleted_at"

theorem Project.columns : Record.Columns Project.setattr ProjectAttr.column where
  again p a := by cases a <;> rfl
  other p a b h := by
    cases a <;> cases b
    all_goals first
      | exact absurd rfl h
      | (cases p; simp [Project.setattr])

theorem Task.columns : Record.Columns Task.setattr TaskAttr.column where
  again t a := by cases a <;> rfl
  other t a b h := by
    cases a <;> cases b
    all_goals first
      | exact absurd rfl h
      | (cases t; simp [Task.setattr])

theorem ProjectUpdate.modelDump_distinct (payload : ProjectUpdate) :
    Record.Distinct ProjectAttr.column payload.modelDump := by
  obtain ⟨_ | name, _ | description⟩ := payload <;>
    simp [Record.Distinct, ProjectUpdate.modelDump, ProjectAttr.column]

theorem TaskUpdate.modelDump_distinct (payload : TaskUpdate) :
    Record.Distinct TaskAttr.column payload.modelDump := by
  obtain ⟨_ | title, _ | description, _ | status, _ | priority, _ | dueDate⟩ := payload <;>
    simp [Record.Distinct, TaskUpdate.modelDump, TaskAttr.column]

/-- Rows with the same `deleted_at` differ in what clients see. -/
theorem Project.read_inj {p q : Project} (hp : p.storable) (hq : q.storable)
    (hdeleted : p.deletedAt = q.deletedAt) (h : p.read = q.read) : p = q := by
  obtain ⟨name, hname⟩ := Project.columns_some hp
  obtain ⟨name', hname'⟩ := Project.columns_some hq
  cases p
  cases q
  simp_all [Project.read]

theorem Task.read_inj {projects : List Project} {t s : Task} (ht : t.storable projects)
    (hs : s.storable projects) (hdeleted : t.deletedAt = s.deletedAt) (h : t.read = s.read) :
    t = s := by
  obtain ⟨title, status, priority, htitle, hstatus, hpriority⟩ := Task.columns_some ht
  obtain ⟨title', status', priority', htitle', hstatus', hpriority'⟩ := Task.columns_some hs
  cases t
  cases s
  simp_all [Task.read]

/-- The updated object, as the response model reads it. -/
theorem modelValidate_updateProject {p : Project} (h : p.storable) (payload : ProjectUpdate) :
    ProjectRead.modelValidate (p.setattrs payload.modelDump) =
      HardDelete.applyProject payload p.read := by
  obtain ⟨name, hname⟩ := Project.columns_some h
  cases p
  cases hname
  obtain ⟨_ | _ | name, _ | description⟩ := payload <;> rfl

theorem modelValidate_updateTask {projects : List Project} {t : Task} (h : t.storable projects)
    (payload : TaskUpdate) :
    TaskRead.modelValidate (t.setattrs payload.modelDump) = HardDelete.applyTask payload t.read := by
  obtain ⟨title, status, priority, htitle, hstatus, hpriority⟩ := Task.columns_some h
  cases t
  cases htitle
  cases hstatus
  cases hpriority
  obtain ⟨_ | _ | title, _ | description, _ | _ | status, _ | _ | priority, _ | dueDate⟩ := payload <;>
    rfl

/-- A value that a stored row has already can be stored. -/
theorem ProjectAttr.storable_of_fixed {p : Project} (h : p.storable) {a : ProjectAttr}
    (ha : p.setattr a = p) : a.storable := by
  simp only [Project.storable, List.all_cons, List.all_nil, Bool.and_eq_true] at h
  rw [← ha] at h
  cases a with
  | ownerId v => rfl
  | name v => exact h.2.1
  | description v => exact h.2.2.1
  | deletedAt v => rfl

theorem TaskAttr.storable_of_fixed {projects : List Project} {t : Task} (h : t.storable projects)
    {a : TaskAttr} (ha : t.setattr a = t) : a.storable projects := by
  simp only [Task.storable, List.all_cons, List.all_nil, Bool.and_eq_true] at h
  rw [← ha] at h
  cases a with
  | projectId v => exact h.1
  | title v => exact h.2.1
  | description v => exact h.2.2.1
  | status v => exact h.2.2.2.1
  | priority v => exact h.2.2.2.2.1
  | dueDate v => rfl
  | deletedAt v => rfl

/-- A text of the schema fits its column unless it has a NUL. -/
theorem varcharOk_shortText (s : ShortText) : varcharOk 255 s.val = textOk s.val := by
  simp [varcharOk, s.property.2]

theorem newProject_storable (now : Nat) (uuid4 owner : UUID) (payload : ProjectCreate) :
    (newProject now uuid4 owner (some payload.name.val) payload.description).storable =
      HardDelete.projectCreateOk payload := by
  obtain ⟨name, _ | description⟩ := payload <;>
    simp [newProject, Project.storable, ProjectAttr.storable, HardDelete.projectCreateOk,
      varcharOk_shortText]

theorem newTask_storable (now : Nat) (uuid4 : UUID) {projects : List Project} {p : Project}
    (hp : p ∈ projects) {payload : TaskCreate} (hid : p.id = payload.projectId) :
    (newTask now uuid4 payload.projectId payload.modelDump).storable projects =
      HardDelete.taskCreateOk payload := by
  have hparent : TaskAttr.storable projects (.projectId payload.projectId) :=
    List.any_eq_true.mpr ⟨p, hp, beq_iff_eq.mpr hid⟩
  have hproject := (newTask_keeps now uuid4 payload.projectId payload).1
  rw [Task.storable, List.all_cons, hproject, hparent, Bool.true_and]
  obtain ⟨projectId, title, _ | description, status, priority, dueDate⟩ := payload <;>
    simp [newTask, Task.setattrs, Task.setattr, TaskCreate.modelDump, TaskAttr.storable,
      HardDelete.taskCreateOk, varcharOk_shortText]

/-- The table takes a new project exactly if it takes the texts of the request. -/
theorem acceptsProject_new (now : Nat) {uuid4 : UUID} (owner : UUID) {projects : List Project}
    (hfresh : ∀ p ∈ projects, p.id ≠ uuid4) (payload : ProjectCreate) :
    acceptsProject projects
      (newProject now uuid4 owner (some payload.name.val) payload.description) =
        HardDelete.projectCreateOk payload := by
  unfold acceptsProject
  rw [List.all_eq_true.mpr, newProject_storable, Bool.true_and]
  intro p hp
  exact decide_eq_true (hfresh p hp)

theorem acceptsTask_new (now : Nat) {uuid4 : UUID} {projects : List Project} {tasks : List Task}
    (hfresh : ∀ t ∈ tasks, t.id ≠ uuid4) {p : Project} (hp : p ∈ projects) {payload : TaskCreate}
    (hid : p.id = payload.projectId) :
    acceptsTask projects tasks (newTask now uuid4 payload.projectId payload.modelDump) =
      HardDelete.taskCreateOk payload := by
  unfold acceptsTask
  rw [List.all_eq_true.mpr, newTask_storable now uuid4 hp hid, Bool.true_and]
  intro t ht
  rw [newTask_id]
  exact decide_eq_true (hfresh t ht)

theorem newest_read (ties : TieOrder) (rows : List Project) :
    latestFirst ProjectRead.createdAt (fun p => ties.rank p.id) (rows.map Project.read) =
      (newest ties rows).map Project.read :=
  latestFirst_map _ _ _ _ (fun _ _ => rfl) fun _ _ => rfl

theorem newest_readTask (ties : TieOrder) (rows : List Task) :
    latestFirst TaskRead.createdAt (fun t => ties.rank t.id) (rows.map Task.read) =
      (newest ties rows).map Task.read :=
  latestFirst_map _ _ _ _ (fun _ _ => rfl) fun _ _ => rfl

/-- The filters read of a stored task what a client reads of it. -/
theorem admits_read (env : Env) (filters : TaskFilters) {projects : List Project} {t : Task}
    (h : t.storable projects) : filters.admits env t = HardDelete.admits env filters t.read := by
  obtain ⟨title, status, priority, htitle, hstatus, hpriority⟩ := Task.columns_some h
  simp [TaskFilters.admits, HardDelete.admits, Task.read, htitle, hstatus, hpriority]

theorem modelDump_storable {payload : ProjectUpdate} {p r : ProjectRead}
    (h : HardDelete.applyProject payload p = some r) :
    payload.modelDump.all ProjectAttr.storable = HardDelete.projectUpdateOk payload := by
  obtain ⟨_ | _ | name, _ | _ | description⟩ := payload
  all_goals first
    | cases h
      done
    | simp [ProjectUpdate.modelDump, ProjectAttr.storable, HardDelete.projectUpdateOk,
        varcharOk_shortText]

theorem modelDump_storableTask {projects : List Project} {payload : TaskUpdate} {t r : TaskRead}
    (h : HardDelete.applyTask payload t = some r) :
    payload.modelDump.all (TaskAttr.storable projects) = HardDelete.taskUpdateOk payload := by
  obtain ⟨_ | _ | title, _ | _ | description, _ | _ | status, _ | _ | priority, dueDate⟩ := payload
  all_goals first
    | cases h
      done
    | cases dueDate <;> simp [TaskUpdate.modelDump, TaskAttr.storable, HardDelete.taskUpdateOk, varcharOk_shortText]

theorem Project.read_of_modelValidate {p : Project} {r : ProjectRead}
    (h : ProjectRead.modelValidate p = some r) : p.read = r := by
  obtain ⟨id, ownerId, _ | name, description, createdAt, updatedAt, deletedAt⟩ := p
  · cases h
  · exact Option.some.inj h

theorem Task.read_of_modelValidate {t : Task} {r : TaskRead}
    (h : TaskRead.modelValidate t = some r) : t.read = r := by
  unfold TaskRead.modelValidate at h
  simp only [Option.bind_eq_bind, Option.bind_eq_some_iff, Option.pure_def, Option.some.injEq] at h
  obtain ⟨title, htitle, status, hstatus, priority, hpriority, rfl⟩ := h
  simp [Task.read, htitle, hstatus, hpriority]

/-- Only the changed columns are sent, but all of them decide whether the row is taken. -/
theorem changed_storable {p : Project} (h : p.storable) (fields : List ProjectAttr) :
    (Record.changed Project.setattr p fields).all ProjectAttr.storable =
      fields.all ProjectAttr.storable := by
  rw [Bool.eq_iff_iff, List.all_eq_true, List.all_eq_true]
  constructor
  · intro hall a ha
    by_cases hfixed : p.setattr a = p
    · exact ProjectAttr.storable_of_fixed h hfixed
    · exact hall a (List.mem_filter.mpr ⟨ha, by simpa using hfixed⟩)
  · exact fun hall a ha => hall a (List.mem_of_mem_filter ha)

theorem changed_storableTask {projects : List Project} {t : Task} (h : t.storable projects)
    (fields : List TaskAttr) :
    (Record.changed Task.setattr t fields).all (TaskAttr.storable projects) =
      fields.all (TaskAttr.storable projects) := by
  rw [Bool.eq_iff_iff, List.all_eq_true, List.all_eq_true]
  constructor
  · intro hall a ha
    by_cases hfixed : t.setattr a = t
    · exact TaskAttr.storable_of_fixed h hfixed
    · exact hall a (List.mem_filter.mpr ⟨ha, by simpa using hfixed⟩)
  · exact fun hall a ha => hall a (List.mem_of_mem_filter ha)

/-- The row after the UPDATE of an object: `onupdate` sets `updated_at` if any column changes. -/
def Project.patched (p : Project) (now : Nat) (fields : List ProjectAttr) : Project :=
  if p.setattrs fields = p then p else { p.setattrs fields with updatedAt := now }

def Task.patched (t : Task) (now : Nat) (fields : List TaskAttr) : Task :=
  if t.setattrs fields = t then t else { t.setattrs fields with updatedAt := now }

section Patched
variable (p : Project) (t : Task) (now : Nat) (fields : List ProjectAttr) (taskFields : List TaskAttr)

/-- Apart from `updated_at` it is the assigned object. -/
theorem Project.patched_eq : p.patched now fields =
    { p.setattrs fields with updatedAt := (p.patched now fields).updatedAt } := by
  unfold Project.patched
  split
  · next h => rw [h]
  · rfl

theorem Task.patched_eq : t.patched now taskFields =
    { t.setattrs taskFields with updatedAt := (t.patched now taskFields).updatedAt } := by
  unfold Task.patched
  split
  · next h => rw [h]
  · rfl

theorem Project.patched_id : (p.patched now fields).id = p.id := by
  rw [Project.patched_eq, Project.setattrs_id]

theorem Task.patched_id : (t.patched now taskFields).id = t.id := by
  rw [Task.patched_eq, Task.setattrs_id]

theorem Project.patched_ownerId : (p.patched now fields).ownerId = (p.setattrs fields).ownerId := by
  rw [Project.patched_eq]

theorem Project.patched_deletedAt :
    (p.patched now fields).deletedAt = (p.setattrs fields).deletedAt := by
  rw [Project.patched_eq]

theorem Task.patched_projectId :
    (t.patched now taskFields).projectId = (t.setattrs taskFields).projectId := by
  rw [Task.patched_eq]

theorem Task.patched_deletedAt :
    (t.patched now taskFields).deletedAt = (t.setattrs taskFields).deletedAt := by
  rw [Task.patched_eq]

end Patched

/-- The table with another row in the place of the one of this id. -/
def World.putProject (w : World) (p : Project) : World :=
  { w with projects := w.projects.map fun q => if q.id = p.id then p else q }

def World.putTask (w : World) (t : Task) : World :=
  { w with tasks := w.tasks.map fun s => if s.id = t.id then t else s }

section Patches
variable {w : World} (hvalid : w.Valid)
include hvalid

theorem putProject_self {p : Project} (hp : p ∈ w.projects) : w.putProject p = w := by
  unfold World.putProject
  have hmap : (w.projects.map fun q => if q.id = p.id then p else q) = w.projects := by
    rw [List.map_congr_left (g := id), List.map_id]
    intro q hq
    split
    · next hid => exact (hvalid.projectIds.eq_of_key hq hp hid).symm
    · rfl
  rw [hmap]

theorem putTask_self {t : Task} (ht : t ∈ w.tasks) : w.putTask t = w := by
  unfold World.putTask
  have hmap : (w.tasks.map fun s => if s.id = t.id then t else s) = w.tasks := by
    rw [List.map_congr_left (g := id), List.map_id]
    intro s hs
    split
    · next hid => exact (hvalid.taskIds.eq_of_key hs ht hid).symm
    · rfl
  rw [hmap]

/-- The UPDATE of a project puts the assigned columns, and its clock if any has changed. -/
theorem patchProject_put {p : Project} (hp : p ∈ w.projects) (payload : ProjectUpdate) :
    w.patchProject p payload.modelDump =
      if payload.modelDump.all ProjectAttr.storable then
        some (w.putProject (p.patched w.now payload.modelDump))
      else none := by
  have hnil := Record.changed_eq_nil (m := p) Project.columns payload.modelDump_distinct
  have hall := changed_storable (hvalid.projectRows p hp) payload.modelDump
  unfold World.patchProject Project.patched
  dsimp only
  by_cases hsame : p.setattrs payload.modelDump = p
  · rw [← hall, hnil.mpr hsame, if_pos hsame, putProject_self hvalid hp]
    rfl
  · rw [if_neg (mt hnil.mp hsame), hall, if_neg hsame]
    congr 2
    unfold World.putProject Write.onProjects
    congr 1
    apply List.map_congr_left
    intro q hq
    have hkey : ({ p.setattrs payload.modelDump with updatedAt := w.now } : Project).id = p.id :=
      Project.setattrs_id ..
    by_cases hid : q.id = p.id
    · obtain rfl := hvalid.projectIds.eq_of_key hq hp hid
      rw [if_pos rfl, if_pos hkey.symm]
      unfold Project.setattrs
      rw [Record.foldl_changed Project.columns payload.modelDump_distinct]
    · rw [if_neg hid, if_neg fun h => hid (h.trans hkey)]

theorem patchTask_put {t : Task} (ht : t ∈ w.tasks) (payload : TaskUpdate) :
    w.patchTask t payload.modelDump =
      if payload.modelDump.all (TaskAttr.storable w.projects) then
        some (w.putTask (t.patched w.now payload.modelDump))
      else none := by
  have hnil := Record.changed_eq_nil (m := t) Task.columns payload.modelDump_distinct
  have hall := changed_storableTask (hvalid.taskRows t ht) payload.modelDump
  unfold World.patchTask Task.patched
  dsimp only
  by_cases hsame : t.setattrs payload.modelDump = t
  · rw [← hall, hnil.mpr hsame, if_pos hsame, putTask_self hvalid ht]
    rfl
  · rw [if_neg (mt hnil.mp hsame), hall, if_neg hsame]
    congr 2
    unfold World.putTask Write.onTasks
    congr 1
    apply List.map_congr_left
    intro s hs
    have hkey : ({ t.setattrs payload.modelDump with updatedAt := w.now } : Task).id = t.id :=
      Task.setattrs_id ..
    by_cases hid : s.id = t.id
    · obtain rfl := hvalid.taskIds.eq_of_key hs ht hid
      rw [if_pos (List.mem_singleton.mpr rfl), if_pos hkey.symm]
      unfold Task.setattrs
      rw [Record.foldl_changed Task.columns payload.modelDump_distinct]
    · rw [if_neg (mt List.mem_singleton.mp hid), if_neg fun h => hid (h.trans hkey)]

/-- An update puts the row that clients see as the updated one, or is refused. -/
theorem patchProject_eq {p : Project} (hp : p ∈ w.projects) {payload : ProjectUpdate}
    {r : ProjectRead} (hr : HardDelete.applyProject payload p.read = some r) :
    ∃ p', p'.id = p.id ∧ p'.ownerId = p.ownerId ∧ p'.deletedAt = p.deletedAt ∧
      (HardDelete.projectUpdateOk payload → p'.read = HardDelete.touchProject w.now p.read r) ∧
      w.patchProject p payload.modelDump =
        if HardDelete.projectUpdateOk payload then some (w.putProject p') else none := by
  have hrow := hvalid.projectRows p hp
  have hread : (p.setattrs payload.modelDump).read = r :=
    Project.read_of_modelValidate ((modelValidate_updateProject hrow payload).trans hr)
  obtain ⟨howner, hdeleted⟩ := p.setattrs_keeps payload.modelDump_updatable
  refine ⟨p.patched w.now payload.modelDump, p.patched_id .., ?_, ?_, fun hok => ?_, ?_⟩
  · rw [Project.patched_ownerId, howner]
  · rw [Project.patched_deletedAt, hdeleted]
  · unfold HardDelete.touchProject Project.patched
    by_cases hsame : p.setattrs payload.modelDump = p
    · rw [if_pos hsame, if_pos (hread.symm.trans (congrArg Project.read hsame))]
    · have hstorable : (p.setattrs payload.modelDump).storable :=
        Project.setattrs_storable hrow (List.all_eq_true.mp ((modelDump_storable hr).trans hok))
      have hne : r ≠ p.read := fun heq =>
        hsame (Project.read_inj hstorable hrow hdeleted (hread.trans heq))
      rw [if_neg hsame, if_neg hne, ← hread]
      rfl
  · rw [patchProject_put hvalid hp, modelDump_storable hr]

theorem patchTask_eq {t : Task} (ht : t ∈ w.tasks) {payload : TaskUpdate} {r : TaskRead}
    (hr : HardDelete.applyTask payload t.read = some r) :
    ∃ t', t'.id = t.id ∧ t'.projectId = t.projectId ∧ t'.deletedAt = t.deletedAt ∧
      (HardDelete.taskUpdateOk payload → t'.read = HardDelete.touchTask w.now t.read r) ∧
      w.patchTask t payload.modelDump =
        if HardDelete.taskUpdateOk payload then some (w.putTask t') else none := by
  have hrow := hvalid.taskRows t ht
  have hread : (t.setattrs payload.modelDump).read = r :=
    Task.read_of_modelValidate ((modelValidate_updateTask hrow payload).trans hr)
  obtain ⟨hparent, hdeleted⟩ := t.setattrs_keeps payload.modelDump_updatable
  refine ⟨t.patched w.now payload.modelDump, t.patched_id .., ?_, ?_, fun hok => ?_, ?_⟩
  · rw [Task.patched_projectId, hparent]
  · rw [Task.patched_deletedAt, hdeleted]
  · unfold HardDelete.touchTask Task.patched
    by_cases hsame : t.setattrs payload.modelDump = t
    · rw [if_pos hsame, if_pos (hread.symm.trans (congrArg Task.read hsame))]
    · have hstorable : (t.setattrs payload.modelDump).storable w.projects :=
        Task.setattrs_storable hrow (List.all_eq_true.mp ((modelDump_storableTask hr).trans hok))
      have hne : r ≠ t.read := fun heq =>
        hsame (Task.read_inj hstorable hrow hdeleted (hread.trans heq))
      rw [if_neg hsame, if_neg hne, ← hread]
      rfl
  · rw [patchTask_put hvalid ht, modelDump_storableTask hr]

end Patches

/-! ## Lists -/

section Lists
variable (env : Env) {w : World} (u : UUID)

theorem tasksFor_stored {filters : TaskFilters} {t : Task} (ht : t ∈ w.tasksFor env u filters) :
    t ∈ w.tasks := (mem_ownedTasks.mp (List.mem_of_mem_filter ht)).1

/-- A page of rows with their NOT NULL columns fits the response model. -/
theorem page_projects (hw : w.Filled) (ties : TieOrder) (offset limit : Nat) :
    (page offset limit (newest ties (ownedProjects w.projects u))).mapM ProjectRead.modelValidate =
      some ((page offset limit (newest ties (ownedProjects w.projects u))).map Project.read) := by
  refine mapM_eq_some fun p hp => Project.modelValidate_filled (hw.projects p ?_)
  exact (mem_ownedProjects.mp (latestFirst_subset.mp (page_subset hp))).1

theorem page_tasks (hw : w.Filled) (filters : TaskFilters) (ties : TieOrder) (offset limit : Nat) :
    (page offset limit (newest ties (w.tasksFor env u filters))).mapM TaskRead.modelValidate =
      some ((page offset limit (newest ties (w.tasksFor env u filters))).map Task.read) := by
  refine mapM_eq_some fun t ht => Task.modelValidate_filled (hw.tasks t ?_)
  exact tasksFor_stored env u (latestFirst_subset.mp (page_subset ht))

end Lists

end TaskMgtApp.Work
