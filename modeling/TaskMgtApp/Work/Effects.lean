import TaskMgtApp.Lib.Rows
import TaskMgtApp.Work.Serial

/-!
# What a request can do to the tables

A request adds one project of its caller, adds one task to a project of its
caller, or changes rows of its caller and leaves their ids, owners and parents
alone (`serve_effect`). So the constraints of the tables hold after every
request, and nobody else's rows change.
-/
namespace TaskMgtApp.Work

open TaskMgtApp.Common
open TaskMgtApp.Lib TaskMgtApp.Lib.Rows

/-! ## Attributes -/

/-- The attributes that an update schema has. -/
def ProjectAttr.updatable : ProjectAttr → Bool
  | .name _ | .description _ => true
  | .ownerId _ | .deletedAt _ => false

def TaskAttr.updatable : TaskAttr → Bool
  | .title _ | .description _ | .status _ | .priority _ | .dueDate _ => true
  | .projectId _ | .deletedAt _ => false

theorem ProjectUpdate.modelDump_updatable (payload : ProjectUpdate) :
    ∀ a ∈ payload.modelDump, a.updatable := by
  intro a ha
  simp only [ProjectUpdate.modelDump, List.mem_append, Option.mem_toList, Option.map_eq_some_iff] at ha
  obtain ⟨v, -, rfl⟩ | ⟨v, -, rfl⟩ := ha <;> rfl

theorem TaskUpdate.modelDump_updatable (payload : TaskUpdate) :
    ∀ a ∈ payload.modelDump, a.updatable := by
  intro a ha
  simp only [TaskUpdate.modelDump, List.mem_append, Option.mem_toList, Option.map_eq_some_iff] at ha
  obtain (((⟨v, -, rfl⟩ | ⟨v, -, rfl⟩) | ⟨v, -, rfl⟩) | ⟨v, -, rfl⟩) | ⟨v, -, rfl⟩ := ha <;> rfl

theorem TaskCreate.modelDump_updatable (payload : TaskCreate) :
    ∀ a ∈ payload.modelDump, a.updatable := by
  intro a ha
  simp only [TaskCreate.modelDump, List.mem_cons, List.not_mem_nil, or_false] at ha
  obtain rfl | rfl | rfl | rfl | rfl := ha <;> rfl

/-- An update keeps the owner and `deleted_at` of a project. -/
theorem Project.setattrs_keeps (p : Project) {fields : List ProjectAttr}
    (h : ∀ a ∈ fields, a.updatable) :
    (p.setattrs fields).ownerId = p.ownerId ∧ (p.setattrs fields).deletedAt = p.deletedAt := by
  induction fields generalizing p with
  | nil => exact ⟨rfl, rfl⟩
  | cons a as ih =>
    obtain ⟨howner, hdeleted⟩ := ih (p.setattr a) fun b hb => h b (List.mem_cons_of_mem _ hb)
    have ha := h a List.mem_cons_self
    cases a with
    | name v => exact ⟨howner, hdeleted⟩
    | description v => exact ⟨howner, hdeleted⟩
    | ownerId v => cases ha
    | deletedAt v => cases ha

/-- An update keeps the project and `deleted_at` of a task. -/
theorem Task.setattrs_keeps (t : Task) {fields : List TaskAttr} (h : ∀ a ∈ fields, a.updatable) :
    (t.setattrs fields).projectId = t.projectId ∧ (t.setattrs fields).deletedAt = t.deletedAt := by
  induction fields generalizing t with
  | nil => exact ⟨rfl, rfl⟩
  | cons a as ih =>
    obtain ⟨hproject, hdeleted⟩ := ih (t.setattr a) fun b hb => h b (List.mem_cons_of_mem _ hb)
    have ha := h a List.mem_cons_self
    cases a with
    | title v => exact ⟨hproject, hdeleted⟩
    | description v => exact ⟨hproject, hdeleted⟩
    | status v => exact ⟨hproject, hdeleted⟩
    | priority v => exact ⟨hproject, hdeleted⟩
    | dueDate v => exact ⟨hproject, hdeleted⟩
    | projectId v => cases ha
    | deletedAt v => cases ha

/-- The row of a new task is in the project that the body names, and active. -/
theorem newTask_keeps (now : Nat) (id projectId : UUID) (payload : TaskCreate) :
    (newTask now id projectId payload.modelDump).projectId = projectId ∧
      (newTask now id projectId payload.modelDump).deletedAt = none :=
  Task.setattrs_keeps _ payload.modelDump_updatable

/-- A row stays storable when storable values are assigned. -/
theorem Project.setattrs_storable {p : Project} {fields : List ProjectAttr} (hp : p.storable)
    (h : ∀ a ∈ fields, a.storable) : (p.setattrs fields).storable := by
  induction fields generalizing p with
  | nil => exact hp
  | cons a as ih =>
    refine ih ?_ fun b hb => h b (List.mem_cons_of_mem _ hb)
    have ha := h a List.mem_cons_self
    simp only [Project.storable, List.all_cons, List.all_nil, Bool.and_eq_true] at hp ⊢
    cases a <;> simp_all [Project.setattr]

theorem Task.setattrs_storable {projects : List Project} {t : Task} {fields : List TaskAttr}
    (ht : t.storable projects) (h : ∀ a ∈ fields, a.storable projects) :
    (t.setattrs fields).storable projects := by
  induction fields generalizing t with
  | nil => exact ht
  | cons a as ih =>
    refine ih ?_ fun b hb => h b (List.mem_cons_of_mem _ hb)
    have ha := h a List.mem_cons_self
    simp only [Task.storable, List.all_cons, List.all_nil, Bool.and_eq_true] at ht ⊢
    cases a <;> simp_all [Task.setattr]

/-! ## The constraints of the tables -/

/-- The primary keys, the foreign key, and the types of the columns. -/
structure World.Valid (w : World) : Prop where
  projectIds : Keyed Project.id w.projects
  taskIds : Keyed Task.id w.tasks
  projectRows : ∀ p ∈ w.projects, p.storable
  taskRows : ∀ t ∈ w.tasks, t.storable w.projects

instance (w : World) : Decidable w.Valid :=
  decidable_of_iff ((w.projects.map Project.id).Nodup ∧ (w.tasks.map Task.id).Nodup ∧
      (∀ p ∈ w.projects, p.storable) ∧ ∀ t ∈ w.tasks, t.storable w.projects)
    ⟨fun ⟨hp, ht, hprows, htrows⟩ => ⟨hp, ht, hprows, htrows⟩,
      fun h => ⟨h.projectIds, h.taskIds, h.projectRows, h.taskRows⟩⟩

/-- Whether the id is that of a project of the user, deleted or not. -/
def World.owns (w : World) (user projectId : UUID) : Bool :=
  w.projects.any fun p => p.id == projectId && p.ownerId == user

theorem World.owns_iff {w : World} {user projectId : UUID} :
    w.owns user projectId ↔ ∃ p ∈ w.projects, p.id = projectId ∧ p.ownerId = user := by
  simp [World.owns]

/-- The rows of one user: the projects, and the tasks under them, deleted or not. -/
def World.view (w : World) (user : UUID) : World where
  now := w.now
  projects := w.projects.filter fun p => p.ownerId == user
  tasks := w.tasks.filter fun t => w.owns user t.projectId

/-- A change of a project of `user` that leaves its id and owner alone. -/
structure ChangesProject (user : UUID) (p p' : Project) : Prop where
  id : p'.id = p.id
  owner : p'.ownerId = p.ownerId
  storable : p'.storable
  own : p' ≠ p → p.ownerId = user

/-- A change of a task of `user` that leaves its id and project alone. -/
structure ChangesTask (w : World) (user : UUID) (t t' : Task) : Prop where
  id : t'.id = t.id
  parent : t'.projectId = t.projectId
  storable : t'.storable w.projects
  own : t' ≠ t → w.owns user t.projectId

/-- The `uuid4` drawn for a new project. -/
def Request.projectDraw : Request → Option UUID
  | .createProject _ uuid4 => some uuid4
  | _ => none

/-- The `uuid4` drawn for a new task. -/
def Request.taskDraw : Request → Option UUID
  | .createTask _ uuid4 => some uuid4
  | _ => none

/-- What one request of `user` does to the tables. -/
inductive Effect (w : World) (user : UUID) (r : Request) : World → Prop where
  | insertProject (row : Project) (accepts : acceptsProject w.projects row)
      (owner : row.ownerId = user) (draw : r.projectDraw = some row.id) :
      Effect w user r { w with projects := w.projects ++ [row] }
  | insertTask (row : Task) (accepts : acceptsTask w.projects w.tasks row)
      (owner : w.owns user row.projectId) (draw : r.taskDraw = some row.id) :
      Effect w user r { w with tasks := w.tasks ++ [row] }
  | update (g : Project → Project) (h : Task → Task)
      (projects : ∀ p ∈ w.projects, ChangesProject user p (g p))
      (tasks : ∀ t ∈ w.tasks, ChangesTask w user t (h t)) :
      Effect w user r { w with projects := w.projects.map g, tasks := w.tasks.map h }

section Effects
variable {env : Env} {w : World} {user : UUID} {r : Request}

theorem ChangesProject.refl {p : Project} (h : p.storable) : ChangesProject user p p :=
  ⟨rfl, rfl, h, fun hne => absurd rfl hne⟩

theorem ChangesTask.refl {t : Task} (h : t.storable w.projects) : ChangesTask w user t t :=
  ⟨rfl, rfl, h, fun hne => absurd rfl hne⟩

theorem Effect.refl (hvalid : w.Valid) : Effect w user r w := by
  have h : Effect w user r _ := .update id id (fun p hp => .refl (hvalid.projectRows p hp))
    fun t ht => .refl (hvalid.taskRows t ht)
  rwa [List.map_id, List.map_id] at h

theorem owns_of_mem {p : Project} (h : p ∈ ownedProjects w.projects user) : w.owns user p.id :=
  have hp := mem_ownedProjects.mp h
  World.owns_iff.mpr ⟨p, hp.1, rfl, hp.2.2⟩

/-- The UPDATE of one project of the user. -/
theorem changesProject (hvalid : w.Valid) {p : Project} (hp : p ∈ w.projects)
    (howner : p.ownerId = user) {fields : List ProjectAttr} (hfields : ∀ a ∈ fields, a.storable)
    (hkeeps : (p.setattrs fields).ownerId = p.ownerId) (stamp : Nat) {q : Project}
    (hq : q ∈ w.projects) : ChangesProject user q
      (if q.id = p.id then { q.setattrs fields with updatedAt := stamp } else q) := by
  by_cases hid : q.id = p.id
  · obtain rfl : q = p := hvalid.projectIds.eq_of_key hq hp hid
    rw [if_pos rfl]
    exact ⟨Project.setattrs_id q fields, hkeeps,
      Project.setattrs_storable (hvalid.projectRows q hq) hfields, fun _ => howner⟩
  · rw [if_neg hid]
    exact .refl (hvalid.projectRows q hq)

/-- The UPDATE of tasks of the user. -/
theorem changesTask (hvalid : w.Valid) {ids : List UUID}
    (hown : ∀ t ∈ w.tasks, t.id ∈ ids → w.owns user t.projectId) {fields : List TaskAttr}
    (hfields : ∀ a ∈ fields, a.storable w.projects)
    (hkeeps : ∀ t : Task, (t.setattrs fields).projectId = t.projectId) (stamp : Nat) {t : Task}
    (ht : t ∈ w.tasks) : ChangesTask w user t
      (if t.id ∈ ids then { t.setattrs fields with updatedAt := stamp } else t) := by
  by_cases hid : t.id ∈ ids
  · rw [if_pos hid]
    exact ⟨Task.setattrs_id t fields, hkeeps t,
      Task.setattrs_storable (hvalid.taskRows t ht) hfields, fun _ => hown t ht hid⟩
  · rw [if_neg hid]
    exact .refl (hvalid.taskRows t ht)

theorem Effect.patchProject (hvalid : w.Valid) {w' : World} {p : Project}
    (hp : p ∈ ownedProjects w.projects user) {fields : List ProjectAttr}
    (hfields : ∀ a ∈ fields, a.updatable) (h : w.patchProject p fields = some w') :
    Effect w user r w' := by
  obtain ⟨hmem, -, howner⟩ := mem_ownedProjects.mp hp
  unfold World.patchProject at h
  dsimp only at h
  split at h
  · obtain rfl := Option.some.inj h
    exact .refl hvalid
  · split at h
    · next hstorable =>
      obtain rfl := Option.some.inj h
      have hchanged : ∀ a ∈ Record.changed Project.setattr p fields, a.updatable :=
        fun a ha => hfields a (List.mem_of_mem_filter ha)
      have heffect := Effect.update (r := r) _ id
        (fun q hq => changesProject hvalid hmem howner (List.all_eq_true.mp hstorable)
          (p.setattrs_keeps hchanged).1 w.now hq)
        fun t ht => .refl (hvalid.taskRows t ht)
      rwa [List.map_id] at heffect
    · cases h

theorem Effect.patchTask (hvalid : w.Valid) {w' : World} {t : Task}
    (ht : t ∈ ownedTasks w.projects w.tasks user) {fields : List TaskAttr}
    (hfields : ∀ a ∈ fields, a.updatable) (h : w.patchTask t fields = some w') :
    Effect w user r w' := by
  obtain ⟨hmem, -, p, hp, hparent⟩ := mem_ownedTasks.mp ht
  unfold World.patchTask at h
  dsimp only at h
  split at h
  · obtain rfl := Option.some.inj h
    exact .refl hvalid
  · split at h
    · next hstorable =>
      obtain rfl := Option.some.inj h
      have hchanged : ∀ a ∈ Record.changed Task.setattr t fields, a.updatable :=
        fun a ha => hfields a (List.mem_of_mem_filter ha)
      have hown : ∀ s ∈ w.tasks, s.id ∈ [t.id] → w.owns user s.projectId := by
        intro s hs hid
        obtain rfl := hvalid.taskIds.eq_of_key hs hmem (List.mem_singleton.mp hid)
        exact hparent ▸ owns_of_mem hp
      have heffect := Effect.update (r := r) id _ (fun q hq => .refl (hvalid.projectRows q hq))
        fun s hs => changesTask hvalid hown (List.all_eq_true.mp hstorable)
          (fun s => (s.setattrs_keeps hchanged).1) w.now hs
      rwa [List.map_id] at heffect
    · cases h

theorem Effect.dropProject (hvalid : w.Valid) {p : Project}
    (hp : p ∈ ownedProjects w.projects user) : Effect w user r (w.dropProject p) := by
  obtain ⟨hmem, -, howner⟩ := mem_ownedProjects.mp hp
  have hown : ∀ t ∈ w.tasks, t.id ∈ w.cascadeIds p.id → w.owns user t.projectId := by
    intro t ht hid
    obtain ⟨s, hs, hst⟩ := List.mem_map.mp hid
    obtain ⟨hs, -, hparent⟩ := mem_tasksUnder.mp hs
    obtain rfl := hvalid.taskIds.eq_of_key hs ht hst
    exact hparent ▸ owns_of_mem hp
  exact .update _ _
    (fun q hq => changesProject hvalid hmem howner (by simp [ProjectAttr.storable]) rfl w.now hq)
    fun t ht => changesTask hvalid hown (by simp [TaskAttr.storable]) (fun _ => rfl) w.now ht

theorem Effect.dropTask (hvalid : w.Valid) {t : Task}
    (ht : t ∈ ownedTasks w.projects w.tasks user) : Effect w user r (w.dropTask t) := by
  obtain ⟨hmem, -, p, hp, hparent⟩ := mem_ownedTasks.mp ht
  have hown : ∀ s ∈ w.tasks, s.id ∈ [t.id] → w.owns user s.projectId := by
    intro s hs hid
    obtain rfl := hvalid.taskIds.eq_of_key hs hmem (List.mem_singleton.mp hid)
    exact hparent ▸ owns_of_mem hp
  have heffect := Effect.update (r := r) id _ (fun q hq => .refl (hvalid.projectRows q hq))
    fun s hs => changesTask hvalid hown
      (show ∀ a ∈ [.deletedAt (some w.now)], TaskAttr.storable w.projects a by
        simp [TaskAttr.storable]) (fun _ => rfl) w.now hs
  rwa [List.map_id] at heffect

/-- Every request has one of the three effects. -/
theorem serve_effect (hvalid : w.Valid) (r : Request) :
    Effect w user r (serve env w user r).2 := by
  cases r with
  | createProject payload uuid4 =>
    rw [serve_createProject]
    dsimp only
    split
    · next haccepts => exact .insertProject _ haccepts rfl rfl
    · exact .refl hvalid
  | listProjects pageParams ties =>
    rw [serve_listProjects]
    split <;> exact .refl hvalid
  | getProject id =>
    rw [serve_getProject]
    split <;> exact .refl hvalid
  | updateProject id payload =>
    rw [serve_updateProject]
    split
    · exact .refl hvalid
    · next p hp =>
      split
      · exact .refl hvalid
      · split
        · exact .refl hvalid
        · next w' hw' =>
          exact .patchProject hvalid (List.mem_of_find?_eq_some hp) payload.modelDump_updatable hw'
  | deleteProject id =>
    rw [serve_deleteProject]
    split
    · exact .refl hvalid
    · next p hp => exact .dropProject hvalid (List.mem_of_find?_eq_some hp)
  | createTask payload uuid4 =>
    rw [serve_createTask]
    split
    · exact .refl hvalid
    · next p hp =>
      dsimp only
      split
      · next haccepts =>
        refine .insertTask _ haccepts ?_ (by rw [newTask_id]; rfl)
        rw [(newTask_keeps ..).1]
        obtain ⟨hmem, -, howner, hid⟩ := project?_spec hp
        exact World.owns_iff.mpr ⟨p, hmem, hid, howner⟩
      · exact .refl hvalid
  | listTasks pageParams filters ties =>
    rw [serve_listTasks]
    split <;> exact .refl hvalid
  | getTask id =>
    rw [serve_getTask]
    split <;> exact .refl hvalid
  | updateTask id payload =>
    rw [serve_updateTask]
    split
    · exact .refl hvalid
    · next t ht =>
      split
      · exact .refl hvalid
      · split
        · exact .refl hvalid
        · next w' hw' =>
          exact .patchTask hvalid (List.mem_of_find?_eq_some ht) payload.modelDump_updatable hw'
  | deleteTask id =>
    rw [serve_deleteTask]
    split
    · exact .refl hvalid
    · next t ht => exact .dropTask hvalid (List.mem_of_find?_eq_some ht)

/-! ## The constraints hold after every request -/

theorem Task.storable_mono {projects projects' : List Project} {t : Task}
    (h : ∀ p ∈ projects, ∃ p' ∈ projects', p'.id = p.id) (ht : t.storable projects) :
    t.storable projects' := by
  simp only [Task.storable, List.all_cons, List.all_nil, Bool.and_eq_true] at ht ⊢
  refine ⟨?_, ht.2⟩
  obtain ⟨p, hp, hid⟩ := List.any_eq_true.mp ht.1
  obtain ⟨p', hp', hid'⟩ := h p hp
  exact List.any_eq_true.mpr ⟨p', hp', by rwa [hid']⟩

theorem Effect.valid (hvalid : w.Valid) {w' : World} (h : Effect w user r w') : w'.Valid := by
  obtain ⟨hprojectIds, htaskIds, hprojectRows, htaskRows⟩ := hvalid
  cases h with
  | insertProject row haccepts howner hdraw =>
    refine ⟨hprojectIds.append (acceptsProject_fresh haccepts), htaskIds, ?_, ?_⟩
    · intro p hp
      obtain hp | hp := List.mem_append.mp hp
      · exact hprojectRows p hp
      · obtain rfl := List.mem_singleton.mp hp
        exact (Bool.and_eq_true _ _ ▸ haccepts).2
    · exact fun t ht => Task.storable_mono
        (fun p hp => ⟨p, List.mem_append_left _ hp, rfl⟩) (htaskRows t ht)
  | insertTask row haccepts howner hdraw =>
    refine ⟨hprojectIds, htaskIds.append (acceptsTask_fresh haccepts), hprojectRows, ?_⟩
    intro t ht
    obtain ht | ht := List.mem_append.mp ht
    · exact htaskRows t ht
    · obtain rfl := List.mem_singleton.mp ht
      exact (Bool.and_eq_true _ _ ▸ haccepts).2
  | update g h hg hh =>
    refine ⟨hprojectIds.map fun p hp => (hg p hp).id, htaskIds.map fun t ht => (hh t ht).id, ?_, ?_⟩
    · intro p' hp'
      obtain ⟨p, hp, rfl⟩ := List.mem_map.mp hp'
      exact (hg p hp).storable
    · intro t' ht'
      obtain ⟨t, ht, rfl⟩ := List.mem_map.mp ht'
      exact Task.storable_mono
        (fun p hp => ⟨g p, List.mem_map_of_mem hp, (hg p hp).id⟩) (hh t ht).storable

/-! ## Nobody else's rows change -/

/-- A project has one owner. -/
theorem World.Valid.owner_unique (hvalid : w.Valid) {other projectId : UUID}
    (h : w.owns user projectId) (h' : w.owns other projectId) : user = other := by
  obtain ⟨p, hp, hid, rfl⟩ := World.owns_iff.mp h
  obtain ⟨p', hp', hid', rfl⟩ := World.owns_iff.mp h'
  rw [hvalid.projectIds.eq_of_key hp hp' (hid.trans hid'.symm)]

/-- A request leaves the rows of every other user as they are. -/
theorem Effect.view (hvalid : w.Valid) {w' : World} (h : Effect w user r w') {other : UUID}
    (hne : user ≠ other) : w'.view other = w.view other := by
  cases h with
  | insertProject row haccepts howner hdraw =>
    have howner' : (row.ownerId == other) = false := by simpa [howner] using hne
    have howns : ∀ id, World.owns { w with projects := w.projects ++ [row] } other id =
        w.owns other id := by
      intro id
      simp [World.owns, howner']
    simp only [World.view, howns, List.filter_append, List.filter_singleton, howner',
      List.append_nil, Bool.cond_false]
  | insertTask row haccepts howner hdraw =>
    have howns : w.owns other row.projectId = false := by
      rw [Bool.eq_false_iff]
      exact fun h => hne (hvalid.owner_unique howner h)
    have howns' : ∀ id, World.owns { w with tasks := w.tasks ++ [row] } other id =
        w.owns other id := fun _ => rfl
    simp only [World.view, howns', List.filter_append, List.filter_singleton, howns,
      List.append_nil, Bool.cond_false]
  | update g h hg hh =>
    have howns : ∀ id, World.owns { w with projects := w.projects.map g, tasks := w.tasks.map h }
        other id = w.owns other id := by
      intro id
      unfold World.owns
      rw [List.any_map, Bool.eq_iff_iff, List.any_eq_true, List.any_eq_true]
      refine exists_congr fun p => and_congr_right fun hp => ?_
      rw [Function.comp_apply, (hg p hp).id, (hg p hp).owner]
    simp only [World.view, howns]
    congr 1
    · apply filter_map_of_fixed
      · intro p hp
        rw [(hg p hp).owner]
      · intro p hp hother
        by_contra hchanged
        exact hne ((hg p hp).own hchanged ▸ beq_iff_eq.mp hother)
    · apply filter_map_of_fixed
      · intro t ht
        rw [(hh t ht).parent]
      · intro t ht hother
        by_contra hchanged
        exact hne (hvalid.owner_unique ((hh t ht).own hchanged) hother)

end Effects

/-! ## Runs of requests -/

/-- A request, who makes it, and when. -/
structure Call where
  user : UUID
  now : Nat
  request : Request

/-- Serve the calls one after the other. -/
def serveAll (env : Env) : World → List Call → List (Except Exc Reply) × World
  | w, [] => ([], w)
  | w, c :: calls =>
    let (reply, w') := serve env { w with now := c.now } c.user c.request
    let (replies, w'') := serveAll env w' calls
    (reply :: replies, w'')

/-- The ids are not those of rows, and none is there twice. -/
structure FreshIds (w : World) (projectIds taskIds : List UUID) : Prop where
  projects : (w.projects.map Project.id ++ projectIds).Nodup
  tasks : (w.tasks.map Task.id ++ taskIds).Nodup

/-- No `uuid4` that the calls draw is the id of a row, or is drawn twice. -/
def FreshDraws (w : World) (calls : List Call) : Prop :=
  FreshIds w (calls.flatMap fun c => c.request.projectDraw.toList)
    (calls.flatMap fun c => c.request.taskDraw.toList)

section Fresh
variable {w : World} {user : UUID} {r : Request} {projectIds taskIds : List UUID}

theorem World.Valid.at {now : Nat} (h : w.Valid) : World.Valid { w with now := now } :=
  ⟨h.projectIds, h.taskIds, h.projectRows, h.taskRows⟩

theorem FreshIds.at {now : Nat} (h : FreshIds w projectIds taskIds) :
    FreshIds { w with now := now } projectIds taskIds := ⟨h.projects, h.tasks⟩

theorem FreshIds.drop {ps ts : List UUID} (h : FreshIds w (ps ++ projectIds) (ts ++ taskIds)) :
    FreshIds w projectIds taskIds where
  projects := h.projects.sublist ((List.Sublist.refl _).append (List.sublist_append_right ..))
  tasks := h.tasks.sublist ((List.Sublist.refl _).append (List.sublist_append_right ..))

theorem FreshIds.project {id : UUID} (h : FreshIds w (r.projectDraw.toList ++ projectIds) taskIds)
    (hdraw : r.projectDraw = some id) : ∀ p ∈ w.projects, p.id ≠ id := by
  have hfresh := h.projects
  rw [hdraw] at hfresh
  exact fun p hp => (List.nodup_append.mp hfresh).2.2 _ (List.mem_map_of_mem hp) _ List.mem_cons_self

theorem FreshIds.task {id : UUID} (h : FreshIds w projectIds (r.taskDraw.toList ++ taskIds))
    (hdraw : r.taskDraw = some id) : ∀ t ∈ w.tasks, t.id ≠ id := by
  have hfresh := h.tasks
  rw [hdraw] at hfresh
  exact fun t ht => (List.nodup_append.mp hfresh).2.2 _ (List.mem_map_of_mem ht) _ List.mem_cons_self

/-- A request takes its draw; the later ones stay fresh. -/
theorem FreshIds.effect {w' : World}
    (h : FreshIds w (r.projectDraw.toList ++ projectIds) (r.taskDraw.toList ++ taskIds))
    (heffect : Effect w user r w') : FreshIds w' projectIds taskIds := by
  cases heffect with
  | insertProject row accepts owner draw =>
    refine ⟨?_, h.drop.tasks⟩
    have hprojects := h.projects
    rw [draw] at hprojects
    rwa [List.map_append, List.append_assoc]
  | insertTask row accepts owner draw =>
    refine ⟨h.drop.projects, ?_⟩
    have htasks := h.tasks
    rw [draw] at htasks
    rwa [List.map_append, List.append_assoc]
  | update g k hg hk =>
    have hg' : (w.projects.map g).map Project.id = w.projects.map Project.id := by
      rw [List.map_map]
      exact List.map_congr_left fun p hp => (hg p hp).id
    have hk' : (w.tasks.map k).map Task.id = w.tasks.map Task.id := by
      rw [List.map_map]
      exact List.map_congr_left fun t ht => (hk t ht).id
    exact ⟨hg' ▸ h.drop.projects, hk' ▸ h.drop.tasks⟩

end Fresh

end TaskMgtApp.Work
