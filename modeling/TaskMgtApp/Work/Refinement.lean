import Mathlib.Data.Nat.Digits.Defs
import TaskMgtApp.Work.Updates

/-!
# Soft delete refines hard delete

The store of an owner that the tables stand for has the projects and tasks whose
`deleted_at` is null, each task under its project (`World.entries`). Every
request changes the tables as it changes that store, and returns the same
(`serve_refines`).
-/
namespace TaskMgtApp.Work

open TaskMgtApp.Common
open TaskMgtApp.Lib TaskMgtApp.Lib.Rows TaskMgtApp.Lib.Listing
open HardDelete (Entry)

/-! ## The store that the tables stand for -/

/-- The project with its active tasks. -/
def entryOf (tasks : List Task) (p : Project) : Entry := ⟨p.read, (tasksUnder tasks p.id).map Task.read⟩

/-- The rows whose `deleted_at` is null and whose project has a null `deleted_at`. -/
def World.entries (w : World) (owner : UUID) : List Entry :=
  (ownedProjects w.projects owner).map (entryOf w.tasks)

section Entries
variable {w : World} {owner : UUID}

theorem entries_projects : (w.entries owner).map Entry.project =
    (ownedProjects w.projects owner).map Project.read := by
  rw [World.entries, List.map_map]
  rfl

theorem project?_entries (id : UUID) :
    HardDelete.project? (w.entries owner) id = (w.project? id owner).map Project.read := by
  unfold HardDelete.project? World.project?
  rw [entries_projects, List.find?_map]
  rfl

theorem ownedProjects_keyed (hvalid : w.Valid) : Keyed Project.id (ownedProjects w.projects owner) :=
  hvalid.projectIds.sublist (List.filter_sublist.trans List.filter_sublist)

/-- The tasks that the join finds are those of the store. -/
theorem allTasks_perm (hvalid : w.Valid) :
    ((ownedTasks w.projects w.tasks owner).map Task.read).Perm
      (HardDelete.allTasks (w.entries owner)) := by
  have hall : HardDelete.allTasks (w.entries owner) =
      ((ownedProjects w.projects owner).flatMap fun p => tasksUnder w.tasks p.id).map Task.read := by
    rw [HardDelete.allTasks, World.entries, List.flatMap_map, List.map_flatMap]
    rfl
  rw [hall]
  exact (join_perm (ownedProjects_keyed hvalid) (active w.tasks) Task.projectId).map Task.read

/-- The store is a finite map of projects, each with a finite map of tasks. -/
theorem entries_keyed (hvalid : w.Valid) :
    Keyed (fun e => e.project.id) (w.entries owner) ∧
      Keyed TaskRead.id (HardDelete.allTasks (w.entries owner)) := by
  constructor
  · have hprojects : Keyed Project.id (ownedProjects w.projects owner) := ownedProjects_keyed hvalid
    unfold Keyed World.entries at *
    rwa [List.map_map]
  · have htasks : Keyed Task.id (ownedTasks w.projects w.tasks owner) :=
      hvalid.taskIds.sublist (List.filter_sublist.trans List.filter_sublist)
    unfold Keyed at *
    rw [← ((allTasks_perm hvalid).map TaskRead.id).nodup_iff, List.map_map]
    exact htasks

theorem task?_entries (hvalid : w.Valid) (id : UUID) :
    HardDelete.task? (w.entries owner) id = (w.task? id owner).map Task.read := by
  unfold HardDelete.task? World.task?
  rw [← find?_perm (allTasks_perm hvalid), List.find?_map]
  · rfl
  · intro a ha b hb hida hidb
    have hid : a.id = b.id := (beq_iff_eq.mp hida).trans (beq_iff_eq.mp hidb).symm
    exact (entries_keyed hvalid).2.eq_of_key ((allTasks_perm hvalid).subset ha)
      ((allTasks_perm hvalid).subset hb) hid

/-- The store depends on the rows of the owner only. -/
theorem entries_view : (w.view owner).entries owner = w.entries owner := by
  have howned : ownedProjects (w.view owner).projects owner = ownedProjects w.projects owner := by
    unfold ownedProjects active World.view
    rw [List.filter_filter, List.filter_filter, List.filter_filter]
    apply List.filter_congr
    intro p _
    cases (p.ownerId == owner) <;> simp
  unfold World.entries
  rw [howned]
  apply List.map_congr_left
  intro p hp
  have howns := owns_of_mem hp
  unfold entryOf tasksUnder active World.view
  congr 2
  rw [List.filter_filter, List.filter_filter, List.filter_filter]
  apply List.filter_congr
  intro t _
  by_cases hid : t.projectId = p.id
  · simp [hid, howns]
  · simp [hid]

/-! ## The changes, table by table -/

theorem World.Valid.parent (hvalid : w.Valid) {t : Task} (ht : t ∈ w.tasks) :
    ∃ p ∈ w.projects, p.id = t.projectId := by
  have h := hvalid.taskRows t ht
  simp only [Task.storable, List.all_cons, Bool.and_eq_true] at h
  obtain ⟨p, hp, hid⟩ := List.any_eq_true.mp h.1
  exact ⟨p, hp, beq_iff_eq.mp hid⟩

theorem ownedProjects_eq (projects : List Project) : ownedProjects projects owner =
    projects.filter fun p => p.ownerId == owner && p.deletedAt.isNone := List.filter_filter ..

theorem tasksUnder_eq (tasks : List Task) (projectId : UUID) : tasksUnder tasks projectId =
    tasks.filter fun t => t.projectId == projectId && t.deletedAt.isNone := List.filter_filter ..

theorem ownedProjects_map {projects : List Project} {g : Project → Project}
    (hg : ∀ p ∈ projects, (g p).ownerId = p.ownerId ∧ (g p).deletedAt = p.deletedAt) :
    ownedProjects (projects.map g) owner = (ownedProjects projects owner).map g := by
  rw [ownedProjects_eq, ownedProjects_eq, List.filter_map]
  congr 1
  apply List.filter_congr
  intro p hp
  obtain ⟨howner, hdeleted⟩ := hg p hp
  rw [Function.comp_apply, howner, hdeleted]

theorem tasksUnder_map {tasks : List Task} {g : Task → Task}
    (hg : ∀ t ∈ tasks, (g t).projectId = t.projectId ∧ (g t).deletedAt = t.deletedAt)
    (projectId : UUID) :
    tasksUnder (tasks.map g) projectId = (tasksUnder tasks projectId).map g := by
  rw [tasksUnder_eq, tasksUnder_eq, List.filter_map]
  congr 1
  apply List.filter_congr
  intro t ht
  obtain ⟨hparent, hdeleted⟩ := hg t ht
  rw [Function.comp_apply, hparent, hdeleted]

theorem entries_insertProject (hvalid : w.Valid) {row : Project}
    (haccepts : acceptsProject w.projects row) (howner : row.ownerId = owner)
    (hdeleted : row.deletedAt = none) :
    World.entries { w with projects := w.projects ++ [row] } owner =
      w.entries owner ++ [⟨row.read, []⟩] := by
  have hnone : tasksUnder w.tasks row.id = [] := by
    refine List.eq_nil_iff_forall_not_mem.mpr fun t ht => ?_
    obtain ⟨ht, -, hparent⟩ := mem_tasksUnder.mp ht
    obtain ⟨p, hp, hid⟩ := hvalid.parent ht
    exact acceptsProject_fresh haccepts p hp (hid.trans hparent)
  have howned : ownedProjects (w.projects ++ [row]) owner = ownedProjects w.projects owner ++ [row] := by
    rw [ownedProjects_eq, ownedProjects_eq, List.filter_append]
    simp [howner, hdeleted]
  unfold World.entries
  rw [howned, List.map_append, List.map_singleton]
  unfold entryOf
  rw [hnone]
  rfl

theorem entries_insertTask {row : Task} (hdeleted : row.deletedAt = none) :
    World.entries { w with tasks := w.tasks ++ [row] } owner =
      HardDelete.addTask row.read (w.entries owner) := by
  unfold World.entries HardDelete.addTask
  rw [List.map_map]
  apply List.map_congr_left
  intro p _
  rw [Function.comp_apply]
  by_cases hid : p.id = row.projectId
  · have hrow : (row.projectId == p.id) = true := beq_iff_eq.mpr hid.symm
    rw [if_pos (show (entryOf w.tasks p).project.id = row.read.projectId from hid)]
    unfold entryOf
    rw [tasksUnder_eq, tasksUnder_eq, List.filter_append, List.filter_singleton, hdeleted, hrow,
      List.map_append]
    rfl
  · have hrow : (row.projectId == p.id) = false := beq_eq_false_iff_ne.mpr (Ne.symm hid)
    rw [if_neg (show ¬ (entryOf w.tasks p).project.id = row.read.projectId from hid)]
    unfold entryOf
    rw [tasksUnder_eq, tasksUnder_eq, List.filter_append, List.filter_singleton, hrow,
      Bool.false_and, Bool.cond_false, List.append_nil]

theorem entries_putProject {p' : Project} (hp' : ∀ p ∈ w.projects, p.id = p'.id →
      p'.ownerId = p.ownerId ∧ p'.deletedAt = p.deletedAt) :
    (w.putProject p').entries owner = HardDelete.setProject p'.read (w.entries owner) := by
  unfold World.entries World.putProject HardDelete.setProject
  rw [ownedProjects_map, List.map_map, List.map_map]
  · apply List.map_congr_left
    intro p _
    rw [Function.comp_apply, Function.comp_apply]
    by_cases hid : p.id = p'.id
    · rw [if_pos hid, if_pos (show (entryOf w.tasks p).project.id = p'.read.id from hid)]
      unfold entryOf
      rw [hid]
    · rw [if_neg hid, if_neg (show ¬ (entryOf w.tasks p).project.id = p'.read.id from hid)]
  · intro p hp
    split
    · next hid => exact hp' p hp hid
    · exact ⟨rfl, rfl⟩

theorem entries_putTask {t' : Task} (ht' : ∀ t ∈ w.tasks, t.id = t'.id →
      t'.projectId = t.projectId ∧ t'.deletedAt = t.deletedAt) :
    (w.putTask t').entries owner = HardDelete.setTask t'.read (w.entries owner) := by
  unfold World.entries World.putTask HardDelete.setTask
  rw [List.map_map]
  apply List.map_congr_left
  intro p _
  dsimp only [Function.comp_apply, entryOf]
  rw [tasksUnder_map, List.map_map, List.map_map]
  · congr 1
    apply List.map_congr_left
    intro t _
    rw [Function.comp_apply, Function.comp_apply]
    by_cases hid : t.id = t'.id
    · rw [if_pos hid, if_pos (show t.read.id = t'.read.id from hid)]
    · rw [if_neg hid, if_neg (show ¬ t.read.id = t'.read.id from hid)]
  · intro t ht
    split
    · next hid => exact ht' t ht hid
    · exact ⟨rfl, rfl⟩

/-- The cascade reaches no task of another project. -/
theorem tasksUnder_drop (hvalid : w.Valid) {p : Project} {projectId : UUID} (hne : projectId ≠ p.id) :
    tasksUnder (w.dropProject p).tasks projectId = tasksUnder w.tasks projectId := by
  rw [tasksUnder_eq, tasksUnder_eq]
  have hcascade : ∀ t ∈ w.tasks, t.id ∈ w.cascadeIds p.id → t.projectId = p.id := by
    intro t ht hid
    obtain ⟨s, hs, hst⟩ := List.mem_map.mp hid
    obtain ⟨hs, -, hparent⟩ := mem_tasksUnder.mp hs
    exact hvalid.taskIds.eq_of_key hs ht hst ▸ hparent
  apply filter_map_of_fixed
  · intro t ht
    split
    · next hid =>
      have hfalse : (p.id == projectId) = false := beq_eq_false_iff_ne.mpr hne.symm
      dsimp only [Task.setattrs, List.foldl, Task.setattr]
      rw [hcascade t ht hid, hfalse, Bool.false_and, Bool.false_and]
    · rfl
  · intro t ht hunder
    split
    · next hid =>
      rw [Bool.and_eq_true, beq_iff_eq] at hunder
      exact absurd (hunder.1.symm.trans (hcascade t ht hid)) hne
    · rfl

theorem entries_dropProject (hvalid : w.Valid) {p : Project} :
    (w.dropProject p).entries owner = HardDelete.removeProject p.id (w.entries owner) := by
  have howned : ownedProjects (w.dropProject p).projects owner =
      (ownedProjects w.projects owner).filter fun q => q.id ≠ p.id := by
    rw [ownedProjects_eq, ownedProjects_eq, List.filter_filter]
    unfold World.dropProject Write.onProjects
    dsimp only
    induction w.projects with
    | nil => rfl
    | cons q qs ih =>
      by_cases hid : q.id = p.id
      · rw [List.map_cons, if_pos hid, List.filter_cons_of_neg, List.filter_cons_of_neg, ih]
        · simp [hid]
        · simp [Project.setattrs, Project.setattr]
      · rw [List.map_cons, if_neg hid, List.filter_cons, List.filter_cons, ih]
        simp [hid]
  unfold World.entries HardDelete.removeProject
  rw [howned, List.filter_map]
  apply List.map_congr_left
  intro q hq
  have hne : q.id ≠ p.id := by simpa using (List.mem_filter.mp hq).2
  unfold entryOf
  rw [tasksUnder_drop hvalid hne]

theorem entries_dropTask {t : Task} :
    (w.dropTask t).entries owner = HardDelete.removeTask t.id (w.entries owner) := by
  unfold World.entries HardDelete.removeTask
  rw [List.map_map]
  apply List.map_congr_left
  intro p _
  have hunder : tasksUnder (w.dropTask t).tasks p.id =
      (tasksUnder w.tasks p.id).filter fun s => s.id ≠ t.id := by
    rw [tasksUnder_eq, tasksUnder_eq, List.filter_filter]
    unfold World.dropTask Write.onTasks
    dsimp only
    induction w.tasks with
    | nil => rfl
    | cons s ss ih =>
      by_cases hid : s.id = t.id
      · rw [List.map_cons, if_pos (List.mem_singleton.mpr hid), List.filter_cons_of_neg,
          List.filter_cons_of_neg, ih]
        · simp [hid]
        · simp [Task.setattrs, Task.setattr]
      · rw [List.map_cons, if_neg (mt List.mem_singleton.mp hid), List.filter_cons, List.filter_cons, ih]
        simp [hid]
  dsimp only [Function.comp_apply, entryOf]
  rw [hunder, List.filter_map]
  rfl

end Entries

/-! ## One request -/

/-- The request does to the tables what it does to the store, and returns the same. -/
def Refines (env : Env) (w : World) (owner : UUID) (r : Request) : Prop :=
  HardDelete.serve env w.now owner (w.entries owner) r =
    ((serve env w owner r).1, (serve env w owner r).2.entries owner)

section Step
variable (env : Env) {w : World} {owner : UUID} (hvalid : w.Valid)
include hvalid

theorem stored_project {id : UUID} {p : Project} (h : w.project? id owner = some p) :
    answer ((ProjectRead.modelValidate p).map .project) = .ok (.project p.read) := by
  rw [Project.modelValidate_eq (hvalid.projectRows p (project?_spec h).1)]
  rfl

theorem stored_task {id : UUID} {t : Task} (h : w.task? id owner = some t) :
    answer ((TaskRead.modelValidate t).map .task) = .ok (.task t.read) := by
  rw [Task.modelValidate_eq (hvalid.taskRows t (task?_spec h).1)]
  rfl

theorem refines_createProject {payload : ProjectCreate} {uuid4 : UUID}
    (hfresh : ∀ p ∈ w.projects, p.id ≠ uuid4) :
    Refines env w owner (.createProject payload uuid4) := by
  unfold Refines HardDelete.serve
  dsimp only
  rw [serve_createProject]
  generalize hrow : newProject w.now uuid4 owner (some payload.name.val) payload.description = row
  have hstorable : row.storable = HardDelete.projectCreateOk payload := by
    rw [← hrow]
    exact newProject_storable ..
  have haccepts : acceptsProject w.projects row = HardDelete.projectCreateOk payload := by
    rw [← hrow]
    exact acceptsProject_new _ _ hfresh payload
  dsimp only
  by_cases hok : HardDelete.projectCreateOk payload
  · have hdeleted : row.deletedAt = none := by rw [← hrow]; rfl
    have howner : row.ownerId = owner := by rw [← hrow]; rfl
    rw [if_pos hok, if_pos (haccepts.trans hok)]
    dsimp only
    rw [entries_insertProject hvalid (haccepts.trans hok) howner hdeleted,
      Project.modelValidate_eq (hstorable.trans hok), ← hrow]
    rfl
  · rw [if_neg hok, if_neg (by rwa [haccepts])]

theorem refines_getProject (id : UUID) : Refines env w owner (.getProject id) := by
  unfold Refines HardDelete.serve
  dsimp only
  rw [serve_getProject, project?_entries]
  cases h : w.project? id owner with
  | none => rfl
  | some p =>
    dsimp only [Option.map_some]
    rw [stored_project hvalid h]

theorem refines_getTask (id : UUID) : Refines env w owner (.getTask id) := by
  unfold Refines HardDelete.serve
  dsimp only
  rw [serve_getTask, task?_entries hvalid]
  cases h : w.task? id owner with
  | none => rfl
  | some t =>
    dsimp only [Option.map_some]
    rw [stored_task hvalid h]

theorem refines_deleteProject (id : UUID) : Refines env w owner (.deleteProject id) := by
  unfold Refines HardDelete.serve
  dsimp only
  rw [serve_deleteProject, project?_entries]
  cases h : w.project? id owner with
  | none => rfl
  | some p =>
    obtain ⟨-, -, -, rfl⟩ := project?_spec h
    dsimp only [Option.map_some]
    rw [entries_dropProject hvalid]

theorem refines_deleteTask (id : UUID) : Refines env w owner (.deleteTask id) := by
  unfold Refines HardDelete.serve
  dsimp only
  rw [serve_deleteTask, task?_entries hvalid]
  cases h : w.task? id owner with
  | none => rfl
  | some t =>
    obtain ⟨-, -, rfl, -⟩ := task?_spec h
    dsimp only [Option.map_some]
    rw [entries_dropTask]

theorem refines_updateProject (id : UUID) (payload : ProjectUpdate) :
    Refines env w owner (.updateProject id payload) := by
  unfold Refines HardDelete.serve
  dsimp only
  rw [serve_updateProject, project?_entries]
  cases h : w.project? id owner with
  | none => rfl
  | some p =>
    obtain ⟨hp, -, -, -⟩ := project?_spec h
    dsimp only [Option.map_some]
    rw [modelValidate_updateProject (hvalid.projectRows p hp)]
    cases hr : HardDelete.applyProject payload p.read with
    | none => rfl
    | some r =>
      obtain ⟨p', hid, howner, hdeleted, hread, hpatch⟩ := patchProject_eq hvalid hp hr
      dsimp only
      rw [hpatch]
      by_cases hok : HardDelete.projectUpdateOk payload
      · rw [if_pos hok, if_pos hok]
        dsimp only
        rw [entries_putProject, hread hok]
        intro q hq hqid
        obtain rfl := hvalid.projectIds.eq_of_key hq hp (hqid.trans hid)
        exact ⟨howner, hdeleted⟩
      · rw [if_neg hok, if_neg hok]

theorem refines_updateTask (id : UUID) (payload : TaskUpdate) :
    Refines env w owner (.updateTask id payload) := by
  unfold Refines HardDelete.serve
  dsimp only
  rw [serve_updateTask, task?_entries hvalid]
  cases h : w.task? id owner with
  | none => rfl
  | some t =>
    obtain ⟨ht, -, -, -⟩ := task?_spec h
    dsimp only [Option.map_some]
    rw [modelValidate_updateTask (hvalid.taskRows t ht)]
    cases hr : HardDelete.applyTask payload t.read with
    | none => rfl
    | some r =>
      obtain ⟨t', hid, hparent, hdeleted, hread, hpatch⟩ := patchTask_eq hvalid ht hr
      dsimp only
      rw [hpatch]
      by_cases hok : HardDelete.taskUpdateOk payload
      · rw [if_pos hok, if_pos hok]
        dsimp only
        rw [entries_putTask, hread hok]
        intro s hs hsid
        obtain rfl := hvalid.taskIds.eq_of_key hs ht (hsid.trans hid)
        exact ⟨hparent, hdeleted⟩
      · rw [if_neg hok, if_neg hok]

omit hvalid in
theorem refines_createTask {payload : TaskCreate} {uuid4 : UUID}
    (hfresh : ∀ t ∈ w.tasks, t.id ≠ uuid4) :
    Refines env w owner (.createTask payload uuid4) := by
  unfold Refines HardDelete.serve
  dsimp only
  rw [serve_createTask, project?_entries]
  cases h : w.project? payload.projectId owner with
  | none => rfl
  | some p =>
    obtain ⟨hp, -, -, hid⟩ := project?_spec h
    dsimp only [Option.map_some]
    have hstorable := newTask_storable w.now uuid4 hp hid
    have hdeleted := (newTask_keeps w.now uuid4 payload.projectId payload).2
    have hread : (newTask w.now uuid4 payload.projectId payload.modelDump).read =
        ⟨uuid4, payload.projectId, payload.title.val, payload.description, payload.status,
          payload.priority, payload.dueDate, w.now, w.now⟩ := rfl
    have haccepts := acceptsTask_new w.now hfresh hp hid
    rw [← hread]
    generalize newTask w.now uuid4 payload.projectId payload.modelDump = row at *
    by_cases hok : HardDelete.taskCreateOk payload
    · rw [if_pos hok, if_pos (haccepts.trans hok)]
      dsimp only
      rw [entries_insertTask hdeleted, Task.modelValidate_eq (hstorable.trans hok)]
      rfl
    · rw [if_neg hok, if_neg (by rwa [haccepts])]

theorem refines_listProjects (pageParams : PageParams) (ties : TieOrder) :
    Refines env w owner (.listProjects pageParams ties) := by
  unfold Refines HardDelete.serve
  dsimp only
  rw [serve_listProjects, entries_projects]
  split
  · rw [page_projects owner hvalid.filled, newest_read, page_map, List.length_map]
    rfl
  · rfl

theorem refines_listTasks (pageParams : PageParams) (filters : TaskFilters) (ties : TieOrder) :
    Refines env w owner (.listTasks pageParams filters ties) := by
  unfold Refines HardDelete.serve
  dsimp only
  rw [serve_listTasks]
  have hrows : ∀ t ∈ w.tasksFor env owner filters, t ∈ w.tasks := fun t => tasksFor_stored env owner
  have hperm : ((w.tasksFor env owner filters).map Task.read).Perm
      ((HardDelete.allTasks (w.entries owner)).filter (HardDelete.admits env filters)) := by
    refine .trans (.of_eq ?_) ((allTasks_perm hvalid).filter _)
    rw [List.filter_map]
    congr 1
    apply List.filter_congr
    intro t ht
    exact admits_read env filters (hvalid.taskRows t (mem_ownedTasks.mp ht).1)
  split
  · have hlisting : latestFirst TaskRead.createdAt (fun t => ties.rank t.id) _ = _ :=
      latestFirst_perm hperm (by
        intro a ha b hb hrank
        obtain ⟨t, ht, rfl⟩ := List.mem_map.mp ha
        obtain ⟨s, hs, rfl⟩ := List.mem_map.mp hb
        rw [hvalid.taskIds.eq_of_key (hrows t ht) (hrows s hs) (ties.injective _ _ hrank)])
    rw [page_tasks env owner hvalid.filled, ← hlisting, newest_readTask, page_map, ← hperm.length_eq,
      List.length_map]
    rfl
  · rfl

/-- Every endpoint refines its hard-deleting counterpart. -/
theorem serve_refines (r : Request) (hproject : ∀ id, r.projectDraw = some id → ∀ p ∈ w.projects, p.id ≠ id)
    (htask : ∀ id, r.taskDraw = some id → ∀ t ∈ w.tasks, t.id ≠ id) : Refines env w owner r := by
  cases r with
  | createProject payload uuid4 => exact refines_createProject env hvalid (hproject uuid4 rfl)
  | listProjects pageParams ties => exact refines_listProjects env hvalid pageParams ties
  | getProject id => exact refines_getProject env hvalid id
  | updateProject id payload => exact refines_updateProject env hvalid id payload
  | deleteProject id => exact refines_deleteProject env hvalid id
  | createTask payload uuid4 => exact refines_createTask env (htask uuid4 rfl)
  | listTasks pageParams filters ties => exact refines_listTasks env hvalid pageParams filters ties
  | getTask id => exact refines_getTask env hvalid id
  | updateTask id payload => exact refines_updateTask env hvalid id payload
  | deleteTask id => exact refines_deleteTask env hvalid id

end Step

/-! ## Every run -/

/-- One request changes the store of its caller as a hard delete would, and no other. -/
theorem serve_entries (env : Env) {w : World} {user : UUID} {r : Request} (hvalid : w.Valid)
    {projectIds taskIds : List UUID}
    (hfresh : FreshIds w (r.projectDraw.toList ++ projectIds) (r.taskDraw.toList ++ taskIds)) :
    Refines env w user r ∧
      ∀ other, user ≠ other → (serve env w user r).2.entries other = w.entries other := by
  constructor
  · exact serve_refines env hvalid r (fun _ => hfresh.project) fun _ => hfresh.task
  · intro other hne
    rw [← entries_view, (serve_effect hvalid r).view hvalid hne, entries_view]

/-- The tables and the store of every owner go on together. -/
theorem serveAll_refines (env : Env) {w : World} (hvalid : w.Valid) {calls : List Call}
    (hfresh : FreshDraws w calls) :
    HardDelete.serveAll env w.entries calls =
      ((serveAll env w calls).1, (serveAll env w calls).2.entries) := by
  induction calls generalizing w with
  | nil => rfl
  | cons c calls ih =>
    have hvalid' : World.Valid { w with now := c.now } := hvalid.at
    have hfresh' : FreshIds { w with now := c.now }
        (c.request.projectDraw.toList ++ calls.flatMap fun c => c.request.projectDraw.toList)
        (c.request.taskDraw.toList ++ calls.flatMap fun c => c.request.taskDraw.toList) :=
      FreshIds.at hfresh
    obtain ⟨hcaller, hothers⟩ := serve_entries env hvalid' hfresh'
    have heffect : Effect _ c.user c.request (serve env { w with now := c.now } c.user c.request).2 :=
      serve_effect hvalid' c.request
    have hstore : Function.update w.entries c.user
        ((serve env { w with now := c.now } c.user c.request).2.entries c.user) =
        (serve env { w with now := c.now } c.user c.request).2.entries := by
      funext owner
      by_cases howner : owner = c.user
      · rw [howner, Function.update_self]
      · rw [Function.update_of_ne howner]
        exact (hothers owner (Ne.symm howner)).symm
    unfold HardDelete.serveAll serveAll
    rw [show HardDelete.serve env c.now c.user (w.entries c.user) c.request = _ from hcaller]
    dsimp only
    rw [hstore, ih (heffect.valid hvalid') (hfresh'.effect heffect)]

/-- Whatever the requests, nobody can tell the soft-deleting tables from a store that
removes what is deleted. -/
theorem soft_delete_refines (env : Env) (w : World) (hvalid : w.Valid) (calls : List Call)
    (hfresh : FreshDraws w calls) :
    (serveAll env w calls).1 = (HardDelete.serveAll env w.entries calls).1 ∧
      (serveAll env w calls).2.entries = (HardDelete.serveAll env w.entries calls).2 := by
  rw [serveAll_refines env hvalid hfresh]
  exact ⟨rfl, rfl⟩

/-! ## A run of two users -/

def plainEnv : Env := ⟨Char.toLower⟩

/-- Rows of the same time by their ids, read as numbers. -/
def idOrder : TieOrder where
  rank u := Nat.ofDigits 0x110000 (u.str.toList.map Char.toNat)
  injective u v h := by
    have hlength : ∀ u : UUID, u.str.toList.length = 36 := by
      intro u
      have hu := u.canonical
      simp only [isCanonical, Bool.and_eq_true, beq_iff_eq] at hu
      exact hu.1
    have hdigits : ∀ (s : String), ∀ n ∈ s.toList.map Char.toNat, n < 0x110000 := by
      intro s n hn
      obtain ⟨c, -, rfl⟩ := List.mem_map.mp hn
      have hc := c.valid
      unfold UInt32.isValidChar Nat.isValidChar at hc
      have : c.toNat = c.val.toNat := rfl
      omega
    have hcodes := Nat.ofDigits_inj_of_len_eq (by decide)
      (by rw [List.length_map, List.length_map, hlength, hlength]) (hdigits u.str) (hdigits v.str) h
    have hchars : u.str.toList = v.str.toList :=
      List.map_injective_iff.mpr (fun c d hcd => Char.toNat_inj.mp hcd) hcodes
    exact UUID.str_inj.mp (String.toList_inj.mp hchars)

def firstPage : PageParams := ⟨1, 20, by decide, by decide, by decide⟩

/-- Ada fills a project and deletes it, with Bob beside her. -/
def deletingCalls : List Call := [
  ⟨plainUuid .zero .zero, 10, .createProject ⟨⟨"Thesis", by decide⟩, none⟩ (plainUuid .one .zero)⟩,
  ⟨plainUuid .zero .zero, 20, .createTask ⟨plainUuid .one .zero, ⟨"Write", by decide⟩, none, .todo, .medium, none⟩
    (plainUuid .two .zero)⟩,
  ⟨plainUuid .zero .zero, 20, .createTask ⟨plainUuid .one .zero, ⟨"Print", by decide⟩, none, .todo, .low, none⟩
    (plainUuid .two .one)⟩,
  ⟨plainUuid .zero .one, 30, .getTask (plainUuid .two .zero)⟩,
  ⟨plainUuid .zero .zero, 30, .updateTask (plainUuid .two .zero) ⟨some (some ⟨"Rewrite", by decide⟩), none, none, none, none⟩⟩,
  ⟨plainUuid .zero .zero, 40, .listTasks firstPage ⟨none, none, none, some "WRITE"⟩ idOrder⟩,
  ⟨plainUuid .zero .zero, 50, .deleteProject (plainUuid .one .zero)⟩,
  ⟨plainUuid .zero .zero, 60, .getTask (plainUuid .two .zero)⟩,
  ⟨plainUuid .zero .zero, 60, .listProjects firstPage idOrder⟩]

def noRows : World := ⟨0, [], []⟩

theorem noRows_valid : noRows.Valid :=
  ⟨List.nodup_nil, List.nodup_nil, by simp [noRows], by simp [noRows]⟩

theorem soft_delete_refines_deleting :
    (serveAll plainEnv noRows deletingCalls).1 =
        (HardDelete.serveAll plainEnv noRows.entries deletingCalls).1 ∧
      (serveAll plainEnv noRows deletingCalls).2.entries =
        (HardDelete.serveAll plainEnv noRows.entries deletingCalls).2 :=
  soft_delete_refines plainEnv noRows noRows_valid deletingCalls
    ⟨by decide +kernel, by decide +kernel⟩

example : (serveAll plainEnv noRows deletingCalls).1.drop 6 =
    [.ok .noContent, .error (.taskNotFoundError "Task not found."), .ok (.projects [] 0 1 20)] := by
  decide +kernel

end TaskMgtApp.Work
