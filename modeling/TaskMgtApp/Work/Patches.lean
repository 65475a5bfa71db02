import TaskMgtApp.Work.Tenants

/-!
# What a PATCH stores and what it answers

The schemas of the updates let a null through for every field, and
`model_dump(exclude_unset=True)` keeps it. The response is made from the assigned
object before the UPDATE, so it does not have the `updated_at` that the UPDATE sets.
-/
namespace TaskMgtApp.Work

open TaskMgtApp.Common
open TaskMgtApp.Lib TaskMgtApp.Lib.Rows

/-! ## The row after an update -/

/-- The supplied fields have changed to their values, a supplied null included, and
nothing else has, `updated_at` aside. -/
structure ProjectUpdate.Stored (payload : ProjectUpdate) (p p' : Project) : Prop where
  id : p'.id = p.id
  ownerId : p'.ownerId = p.ownerId
  name : p'.name = (payload.name.map (Option.map Subtype.val)).getD p.name
  description : p'.description = payload.description.getD p.description
  createdAt : p'.createdAt = p.createdAt
  deletedAt : p'.deletedAt = p.deletedAt

structure TaskUpdate.Stored (payload : TaskUpdate) (t t' : Task) : Prop where
  id : t'.id = t.id
  projectId : t'.projectId = t.projectId
  title : t'.title = (payload.title.map (Option.map Subtype.val)).getD t.title
  description : t'.description = payload.description.getD t.description
  status : t'.status = payload.status.getD t.status
  priority : t'.priority = payload.priority.getD t.priority
  dueDate : t'.dueDate = payload.dueDate.getD t.dueDate
  createdAt : t'.createdAt = t.createdAt
  deletedAt : t'.deletedAt = t.deletedAt

/-- No supplied value is a null for a NOT NULL column. -/
def ProjectUpdate.NonNull (payload : ProjectUpdate) : Prop := payload.name ≠ some none

def TaskUpdate.NonNull (payload : TaskUpdate) : Prop :=
  payload.title ≠ some none ∧ payload.status ≠ some none ∧ payload.priority ≠ some none

instance (payload : ProjectUpdate) : Decidable payload.NonNull :=
  inferInstanceAs (Decidable (_ ≠ _))

instance (payload : TaskUpdate) : Decidable payload.NonNull :=
  inferInstanceAs (Decidable (_ ∧ _))

section Rows
variable (p : Project) (t : Task) (payload : ProjectUpdate) (taskPayload : TaskUpdate) (now : Nat)

theorem Project.patched_stored : payload.Stored p (p.patched now payload.modelDump) := by
  rw [Project.patched_eq]
  obtain ⟨_ | name, _ | description⟩ := payload <;> constructor <;> rfl

theorem Task.patched_stored : taskPayload.Stored t (t.patched now taskPayload.modelDump) := by
  rw [Task.patched_eq]
  obtain ⟨_ | title, _ | description, _ | status, _ | priority, _ | dueDate⟩ := taskPayload <;>
    constructor <;> rfl

theorem applyProject_isSome {p : ProjectRead} :
    (HardDelete.applyProject payload p).isSome ↔ payload.NonNull := by
  obtain ⟨_ | _ | name, description⟩ := payload <;>
    simp [HardDelete.applyProject, ProjectUpdate.NonNull]

theorem applyTask_isSome {t : TaskRead} :
    (HardDelete.applyTask taskPayload t).isSome ↔ taskPayload.NonNull := by
  obtain ⟨_ | _ | title, description, _ | _ | status, _ | _ | priority, dueDate⟩ := taskPayload <;>
    simp [HardDelete.applyTask, TaskUpdate.NonNull]

end Rows

/-- A column that had a value and gets no null has one. -/
theorem isSome_getD {α : Type} {supplied : Option (Option α)} {old : Option α}
    (hsupplied : supplied ≠ some none) (hold : old.isSome) : (supplied.getD old).isSome := by
  cases supplied with
  | none => exact hold
  | some value =>
    cases value with
    | none => exact absurd rfl hsupplied
    | some v => rfl

section Patches
variable (env : Env) {w : World} {u id : UUID}

/-- What a PATCH of a visible project does. -/
theorem serve_patchProject (hvalid : w.Valid) {p : Project} (h : w.project? id u = some p)
    (payload : ProjectUpdate) :
    serve env w u (.updateProject id payload) = match HardDelete.applyProject payload p.read with
      | none => (.error .responseValidationError, w)
      | some r =>
        if HardDelete.projectUpdateOk payload then
          (.ok (.project r), w.putProject (p.patched w.now payload.modelDump))
        else (.error .dbError, w) := by
  obtain ⟨hp, -, -, -⟩ := project?_spec h
  rw [serve_updateProject, h]
  dsimp only
  rw [modelValidate_updateProject (hvalid.projectRows p hp)]
  cases hr : HardDelete.applyProject payload p.read with
  | none => rfl
  | some r =>
    dsimp only
    rw [patchProject_put hvalid hp, modelDump_storable hr]
    cases HardDelete.projectUpdateOk payload <;> rfl

theorem serve_patchTask (hvalid : w.Valid) {t : Task} (h : w.task? id u = some t)
    (payload : TaskUpdate) :
    serve env w u (.updateTask id payload) = match HardDelete.applyTask payload t.read with
      | none => (.error .responseValidationError, w)
      | some r =>
        if HardDelete.taskUpdateOk payload then
          (.ok (.task r), w.putTask (t.patched w.now payload.modelDump))
        else (.error .dbError, w) := by
  obtain ⟨ht, -, -, -⟩ := task?_spec h
  rw [serve_updateTask, h]
  dsimp only
  rw [modelValidate_updateTask (hvalid.taskRows t ht)]
  cases hr : HardDelete.applyTask payload t.read with
  | none => rfl
  | some r =>
    dsimp only
    rw [patchTask_put hvalid ht, modelDump_storableTask hr]
    cases HardDelete.taskUpdateOk payload <;> rfl

/-- The request has ended with 200, and the row has the supplied fields and no null in a
NOT NULL column. -/
def ProjectPatched (w : World) (p : Project) (payload : ProjectUpdate)
    (result : Except Exc Reply × World) : Prop :=
  ∃ r p', result = (.ok (.project r), w.putProject p') ∧ payload.Stored p p' ∧ p'.name.isSome

def TaskPatched (w : World) (t : Task) (payload : TaskUpdate)
    (result : Except Exc Reply × World) : Prop :=
  ∃ r t', result = (.ok (.task r), w.putTask t') ∧ payload.Stored t t' ∧ t'.title.isSome ∧
    t'.status.isSome ∧ t'.priority.isSome

theorem projectPatched_iff (hvalid : w.Valid) {p : Project} (h : w.project? id u = some p)
    (payload : ProjectUpdate) :
    ProjectPatched w p payload (serve env w u (.updateProject id payload)) ↔
      payload.NonNull ∧ HardDelete.projectUpdateOk payload := by
  obtain ⟨hp, -, -, -⟩ := project?_spec h
  rw [serve_patchProject env hvalid h, ← applyProject_isSome payload (p := p.read)]
  cases hr : HardDelete.applyProject payload p.read with
  | none =>
    constructor
    · rintro ⟨r, p', heq, -⟩
      cases heq
    · rintro ⟨hsome, -⟩
      cases hsome
  | some r =>
    by_cases hok : HardDelete.projectUpdateOk payload
    · simp only [hok, if_true, Option.isSome_some, and_self, iff_true]
      have hstored := p.patched_stored payload w.now
      obtain ⟨name, hname⟩ := Project.columns_some (hvalid.projectRows p hp)
      have hnon : payload.name ≠ some none :=
        (applyProject_isSome payload).mp (Option.isSome_iff_exists.mpr ⟨r, hr⟩)
      refine ⟨r, _, rfl, hstored, ?_⟩
      rw [hstored.name]
      exact isSome_getD (by simpa using hnon) (by rw [hname]; rfl)
    · simp only [hok, Bool.false_eq_true, if_false, and_false, iff_false]
      rintro ⟨r, p', heq, -⟩
      cases heq

theorem taskPatched_iff (hvalid : w.Valid) {t : Task} (h : w.task? id u = some t)
    (payload : TaskUpdate) :
    TaskPatched w t payload (serve env w u (.updateTask id payload)) ↔
      payload.NonNull ∧ HardDelete.taskUpdateOk payload := by
  obtain ⟨ht, -, -, -⟩ := task?_spec h
  rw [serve_patchTask env hvalid h, ← applyTask_isSome payload (t := t.read)]
  cases hr : HardDelete.applyTask payload t.read with
  | none =>
    constructor
    · rintro ⟨r, t', heq, -⟩
      cases heq
    · rintro ⟨hsome, -⟩
      cases hsome
  | some r =>
    by_cases hok : HardDelete.taskUpdateOk payload
    · simp only [hok, if_true, Option.isSome_some, and_self, iff_true]
      have hstored := t.patched_stored payload w.now
      obtain ⟨title, status, priority, htitle, hstatus, hpriority⟩ :=
        Task.columns_some (hvalid.taskRows t ht)
      obtain ⟨hnonTitle, hnonStatus, hnonPriority⟩ :=
        (applyTask_isSome payload).mp (Option.isSome_iff_exists.mpr ⟨r, hr⟩)
      refine ⟨r, _, rfl, hstored, ?_, ?_, ?_⟩
      · rw [hstored.title]
        exact isSome_getD (by simpa using hnonTitle) (by rw [htitle]; rfl)
      · rw [hstored.status]
        exact isSome_getD hnonStatus (by rw [hstatus]; rfl)
      · rw [hstored.priority]
        exact isSome_getD hnonPriority (by rw [hpriority]; rfl)
    · simp only [hok, Bool.false_eq_true, if_false, and_false, iff_false]
      rintro ⟨r, t', heq, -⟩
      cases heq

end Patches

/-- For every state, every row that is visible to the caller, and every body that the schema
of the update accepts: the request ends with 200, the row has exactly the supplied fields
changed, and its NOT NULL columns have values, if and only if the body has no null for one
of these and no text with a NUL. -/
theorem patch_stores (env : Env) (px : Pydantic) (w : World) (hvalid : w.Valid) (u : UUID)
    (h : HttpRequest) (id : UUID) :
    (∀ (payload : TaskUpdate) (t : Task), h.validate px = some (.updateTask id payload) →
      w.task? id u = some t →
      (TaskPatched w t payload (handle env px w u h) ↔
        payload.NonNull ∧ HardDelete.taskUpdateOk payload)) ∧
    (∀ (payload : ProjectUpdate) (p : Project), h.validate px = some (.updateProject id payload) →
      w.project? id u = some p →
      (ProjectPatched w p payload (handle env px w u h) ↔
        payload.NonNull ∧ HardDelete.projectUpdateOk payload)) := by
  constructor
  · intro payload t hpayload hfound
    rw [handle, hpayload]
    exact taskPatched_iff env hvalid hfound payload
  · intro payload p hpayload hfound
    rw [handle, hpayload]
    exact projectPatched_iff env hvalid hfound payload

/-! ### Two bodies -/

/-- Ada's project with one task, a hundred seconds later. -/
def oneTask : World where
  now := 100
  projects := [⟨plainUuid .one .zero, plainUuid .zero .zero, some "Thesis", none, 10, 10, none⟩]
  tasks := [⟨plainUuid .two .zero, plainUuid .one .zero, some "Write", some "Soon", some .todo,
    some .high, none, 20, 20, none⟩]

def theTask : Task :=
  ⟨plainUuid .two .zero, plainUuid .one .zero, some "Write", some "Soon", some .todo, some .high, none,
    20, 20, none⟩

/-- A new status, and a null for the description. -/
theorem patch_stores_clearing :
    TaskPatched oneTask theTask ⟨none, some none, some (some .done), none, none⟩
      (handle plainEnv plainPydantic oneTask (plainUuid .zero .zero)
        (.patchTask (plainUuid .two .zero).str
          (some (.object [("status", .string "done"), ("description", .null)])))) :=
  ((patch_stores plainEnv plainPydantic oneTask (by decide +kernel) (plainUuid .zero .zero)
    (.patchTask (plainUuid .two .zero).str
      (some (.object [("status", .string "done"), ("description", .null)]))) (plainUuid .two .zero)).1
    ⟨none, some none, some (some .done), none, none⟩ theTask rfl
    (by decide +kernel)).mpr (by decide +kernel)

/-- A null for the status: the schema lets it through, and the request ends with a 500. -/
theorem patch_stores_null :
    HttpRequest.validate plainPydantic (.patchTask (plainUuid .two .zero).str
      (some (.object [("status", .null)]))) =
        some (.updateTask (plainUuid .two .zero) ⟨none, none, some none, none, none⟩) ∧
    ¬ TaskPatched oneTask theTask ⟨none, none, some none, none, none⟩
      (handle plainEnv plainPydantic oneTask (plainUuid .zero .zero)
        (.patchTask (plainUuid .two .zero).str (some (.object [("status", .null)])))) := by
  refine ⟨rfl, ?_⟩
  rintro ⟨r, t', heq, -⟩
  have hresult : (handle plainEnv plainPydantic oneTask (plainUuid .zero .zero)
      (.patchTask (plainUuid .two .zero).str (some (.object [("status", .null)])))).1 =
        .error .responseValidationError := by
    decide +kernel
  rw [heq] at hresult
  cases hresult

/-! ## The response and the row -/

section Responses
variable {w : World} {u id : UUID}

@[simp] theorem Project.setattrs_updatedAt (p : Project) (fields : List ProjectAttr) :
    (p.setattrs fields).updatedAt = p.updatedAt := by
  induction fields generalizing p with
  | nil => rfl
  | cons a as ih => exact (ih (p.setattr a)).trans (by cases a <;> rfl)

@[simp] theorem Task.setattrs_updatedAt (t : Task) (fields : List TaskAttr) :
    (t.setattrs fields).updatedAt = t.updatedAt := by
  induction fields generalizing t with
  | nil => rfl
  | cons a as ih => exact (ih (t.setattr a)).trans (by cases a <;> rfl)

/-- The clock of the row stays as it was exactly if nothing was changed, or it is now. -/
theorem Project.patched_updatedAt (p : Project) (now : Nat) (fields : List ProjectAttr) :
    (p.patched now fields).updatedAt = p.updatedAt ↔ p.setattrs fields = p ∨ now = p.updatedAt := by
  unfold Project.patched
  split
  · next h => simp [h]
  · next h => simp [h]

theorem Task.patched_updatedAt (t : Task) (now : Nat) (fields : List TaskAttr) :
    (t.patched now fields).updatedAt = t.updatedAt ↔ t.setattrs fields = t ∨ now = t.updatedAt := by
  unfold Task.patched
  split
  · next h => simp [h]
  · next h => simp [h]

/-- The row is read as the assigned object is, but for its clock. -/
theorem Project.modelValidate_patched {p : Project} {now : Nat} {fields : List ProjectAttr}
    {r : ProjectRead} (h : ProjectRead.modelValidate (p.setattrs fields) = some r) :
    ProjectRead.modelValidate (p.patched now fields) =
      some { r with updatedAt := (p.patched now fields).updatedAt } := by
  rw [Project.patched_eq]
  unfold ProjectRead.modelValidate at *
  cases hname : (p.setattrs fields).name with
  | none => simp [hname] at h
  | some name =>
    simp only [hname, Option.bind_eq_bind, Option.bind_some, Option.pure_def, Option.some.injEq] at h ⊢
    rw [← h]

theorem Task.modelValidate_patched {t : Task} {now : Nat} {fields : List TaskAttr} {r : TaskRead}
    (h : TaskRead.modelValidate (t.setattrs fields) = some r) :
    TaskRead.modelValidate (t.patched now fields) =
      some { r with updatedAt := (t.patched now fields).updatedAt } := by
  rw [Task.patched_eq]
  unfold TaskRead.modelValidate at *
  simp only [Option.bind_eq_bind, Option.bind_eq_some_iff, Option.pure_def, Option.some.injEq] at h
  obtain ⟨title, htitle, status, hstatus, priority, hpriority, rfl⟩ := h
  simp [htitle, hstatus, hpriority]

/-- A row put in the place of a visible one is found by its id. -/
theorem project?_putProject (hvalid : w.Valid) {p p' : Project} (h : w.project? id u = some p)
    (hid : p'.id = p.id) (howner : p'.ownerId = p.ownerId) (hdeleted : p'.deletedAt = p.deletedAt) :
    (w.putProject p').project? id u = some p' := by
  obtain ⟨hp, hactive, hown, rfl⟩ := project?_spec h
  have hkeyed : Keyed Project.id (ownedProjects (w.putProject p').projects u) := by
    refine Keyed.sublist ?_ (List.filter_sublist.trans List.filter_sublist)
    refine hvalid.projectIds.map fun q _ => ?_
    split
    · next hq => exact hq.symm
    · rfl
  have hmem : p' ∈ ownedProjects (w.putProject p').projects u := by
    refine mem_ownedProjects.mpr ⟨?_, hdeleted.trans hactive, howner.trans hown⟩
    exact List.mem_map.mpr ⟨p, hp, if_pos hid.symm⟩
  rw [World.project?, ← hid]
  exact hkeyed.find?_key hmem

theorem task?_putTask (hvalid : w.Valid) {t t' : Task} (h : w.task? id u = some t)
    (hid : t'.id = t.id) (hparent : t'.projectId = t.projectId)
    (hdeleted : t'.deletedAt = t.deletedAt) : (w.putTask t').task? id u = some t' := by
  obtain ⟨ht, hactive, rfl, p, hp, hpid⟩ := task?_spec h
  have hkeyed : Keyed Task.id (ownedTasks (w.putTask t').projects (w.putTask t').tasks u) := by
    refine Keyed.sublist ?_ (List.filter_sublist.trans List.filter_sublist)
    refine hvalid.taskIds.map fun s _ => ?_
    split
    · next hs => exact hs.symm
    · rfl
  have hmem : t' ∈ ownedTasks (w.putTask t').projects (w.putTask t').tasks u := by
    refine mem_ownedTasks.mpr ⟨?_, hdeleted.trans hactive, p, hp, hpid.trans hparent.symm⟩
    exact List.mem_map.mpr ⟨t, ht, if_pos hid.symm⟩
  rw [World.task?, ← hid]
  exact hkeyed.find?_key hmem

/-- The PATCH is answered with the row that a GET by the same user shows afterwards, at
whatever time it comes. -/
def ProjectShown (env : Env) (w : World) (u id : UUID) (payload : ProjectUpdate) (later : Nat) :
    Prop :=
  ∃ r, (serve env w u (.updateProject id payload)).1 = .ok (.project r) ∧
    (serve env { (serve env w u (.updateProject id payload)).2 with now := later } u
      (.getProject id)).1 = .ok (.project r)

def TaskShown (env : Env) (w : World) (u id : UUID) (payload : TaskUpdate) (later : Nat) : Prop :=
  ∃ r, (serve env w u (.updateTask id payload)).1 = .ok (.task r) ∧
    (serve env { (serve env w u (.updateTask id payload)).2 with now := later } u
      (.getTask id)).1 = .ok (.task r)

theorem exists_same_clock {r : ProjectRead} {n : Nat} :
    (∃ r', r = r' ∧ { r with updatedAt := n } = r') ↔ n = r.updatedAt := by
  constructor
  · rintro ⟨r', rfl, heq⟩
    exact congrArg ProjectRead.updatedAt heq
  · rintro rfl
    exact ⟨r, rfl, rfl⟩

theorem exists_same_clockTask {r : TaskRead} {n : Nat} :
    (∃ r', r = r' ∧ { r with updatedAt := n } = r') ↔ n = r.updatedAt := by
  constructor
  · rintro ⟨r', rfl, heq⟩
    exact congrArg TaskRead.updatedAt heq
  · rintro rfl
    exact ⟨r, rfl, rfl⟩

theorem projectShown_iff (env : Env) (hvalid : w.Valid) {p : Project}
    (h : w.project? id u = some p) {payload : ProjectUpdate} (hnon : payload.NonNull) (later : Nat) :
    ProjectShown env w u id payload later ↔ HardDelete.projectUpdateOk payload ∧
      (p.setattrs payload.modelDump = p ∨ w.now = p.updatedAt) := by
  obtain ⟨r, hr⟩ := Option.isSome_iff_exists.mp ((applyProject_isSome payload (p := p.read)).mpr hnon)
  have hvalidated : ProjectRead.modelValidate (p.setattrs payload.modelDump) = some r :=
    (modelValidate_updateProject (hvalid.projectRows p (project?_spec h).1) payload).trans hr
  have hclock : r.updatedAt = p.updatedAt := by
    rw [← Project.read_of_modelValidate hvalidated]
    exact p.setattrs_updatedAt payload.modelDump
  unfold ProjectShown
  rw [serve_patchProject env hvalid h, hr]
  dsimp only
  by_cases hok : HardDelete.projectUpdateOk payload
  · obtain ⟨howner, hdeleted⟩ := p.setattrs_keeps payload.modelDump_updatable
    have hfound := project?_putProject hvalid h (p.patched_id w.now payload.modelDump)
      ((p.patched_ownerId ..).trans howner) ((p.patched_deletedAt ..).trans hdeleted)
    have hlater : World.project? { w.putProject (p.patched w.now payload.modelDump) with now := later }
        id u = some (p.patched w.now payload.modelDump) := hfound
    rw [← Project.patched_updatedAt, ← hclock]
    simp only [hok, if_true, true_and, serve_getProject, hlater,
      Project.modelValidate_patched hvalidated, Option.map_some, answer, Option.elim_some,
      Except.ok.injEq, Reply.project.injEq]
    exact exists_same_clock
  · simp [hok]

theorem taskShown_iff (env : Env) (hvalid : w.Valid) {t : Task} (h : w.task? id u = some t)
    {payload : TaskUpdate} (hnon : payload.NonNull) (later : Nat) :
    TaskShown env w u id payload later ↔ HardDelete.taskUpdateOk payload ∧
      (t.setattrs payload.modelDump = t ∨ w.now = t.updatedAt) := by
  obtain ⟨r, hr⟩ := Option.isSome_iff_exists.mp ((applyTask_isSome payload (t := t.read)).mpr hnon)
  have hvalidated : TaskRead.modelValidate (t.setattrs payload.modelDump) = some r :=
    (modelValidate_updateTask (hvalid.taskRows t (task?_spec h).1) payload).trans hr
  have hclock : r.updatedAt = t.updatedAt := by
    rw [← Task.read_of_modelValidate hvalidated]
    exact t.setattrs_updatedAt payload.modelDump
  unfold TaskShown
  rw [serve_patchTask env hvalid h, hr]
  dsimp only
  by_cases hok : HardDelete.taskUpdateOk payload
  · obtain ⟨hparent, hdeleted⟩ := t.setattrs_keeps payload.modelDump_updatable
    have hfound := task?_putTask hvalid h (t.patched_id w.now payload.modelDump)
      ((t.patched_projectId ..).trans hparent) ((t.patched_deletedAt ..).trans hdeleted)
    have hlater : World.task? { w.putTask (t.patched w.now payload.modelDump) with now := later }
        id u = some (t.patched w.now payload.modelDump) := hfound
    rw [← Task.patched_updatedAt, ← hclock]
    simp only [hok, if_true, true_and, serve_getTask, hlater, Task.modelValidate_patched hvalidated,
      Option.map_some, answer, Option.elim_some, Except.ok.injEq, Reply.task.injEq]
    exact exists_same_clockTask
  · simp [hok]

end Responses

/-- For every state, every row that is visible to the caller, and every update without a
null for a NOT NULL column: the PATCH is answered with what a GET directly afterwards shows,
if and only if no text of the update has a NUL, and either no supplied value differs from
the stored one, or `updated_at` has been this very instant before. -/
theorem patch_shows (env : Env) (w : World) (hvalid : w.Valid) (u id : UUID) (later : Nat) :
    (∀ (payload : TaskUpdate) (t : Task), payload.NonNull → w.task? id u = some t →
      (TaskShown env w u id payload later ↔ HardDelete.taskUpdateOk payload ∧
        (t.setattrs payload.modelDump = t ∨ w.now = t.updatedAt))) ∧
    (∀ (payload : ProjectUpdate) (p : Project), payload.NonNull → w.project? id u = some p →
      (ProjectShown env w u id payload later ↔ HardDelete.projectUpdateOk payload ∧
        (p.setattrs payload.modelDump = p ∨ w.now = p.updatedAt))) :=
  ⟨fun _ _ hnon h => taskShown_iff env hvalid h hnon later,
    fun _ _ hnon h => projectShown_iff env hvalid h hnon later⟩

/-- The same title again. -/
theorem patch_shows_same :
    TaskShown plainEnv oneTask (plainUuid .zero .zero) (plainUuid .two .zero)
      ⟨some (some ⟨"Write", by decide⟩), none, none, none, none⟩ 101 :=
  ((patch_shows plainEnv oneTask (by decide +kernel) (plainUuid .zero .zero) (plainUuid .two .zero)
    101).1 ⟨some (some ⟨"Write", by decide⟩), none, none, none, none⟩ theTask (by decide)
    (by decide +kernel)).mpr (by decide +kernel)

/-- Another title: the response has the `updated_at` from before. -/
theorem patch_shows_stale :
    ¬ TaskShown plainEnv oneTask (plainUuid .zero .zero) (plainUuid .two .zero)
      ⟨some (some ⟨"Rewrite", by decide⟩), none, none, none, none⟩ 101 := by
  rintro ⟨r, hpatch, hget⟩
  have hpatched : (serve plainEnv oneTask (plainUuid .zero .zero) (.updateTask (plainUuid .two .zero)
      ⟨some (some ⟨"Rewrite", by decide⟩), none, none, none, none⟩)).1 =
      .ok (.task ⟨plainUuid .two .zero, plainUuid .one .zero, "Rewrite", some "Soon", .todo, .high,
        none, 20, 20⟩) := by
    decide +kernel
  have hgot : (serve plainEnv { (serve plainEnv oneTask (plainUuid .zero .zero)
      (.updateTask (plainUuid .two .zero) ⟨some (some ⟨"Rewrite", by decide⟩), none, none, none,
        none⟩)).2 with now := 101 } (plainUuid .zero .zero) (.getTask (plainUuid .two .zero))).1 =
      .ok (.task ⟨plainUuid .two .zero, plainUuid .one .zero, "Rewrite", some "Soon", .todo, .high,
        none, 20, 100⟩) := by
    decide +kernel
  rw [hpatch] at hpatched
  rw [hget, hpatched] at hgot
  revert hgot
  decide

end TaskMgtApp.Work
