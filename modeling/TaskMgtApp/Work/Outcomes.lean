import TaskMgtApp.Work.Confinement
import TaskMgtApp.Work.Lingering
import TaskMgtApp.Work.ListRequests
import TaskMgtApp.Work.Patches

/-!
# How a request can end

Whatever requests run side by side, and in every order of their statements, a request comes
to its end after seven statements at the latest. It ends well only if its values can be
stored, and then with a reply that fits it and shows rows of its user only; it ends with a
404 if a row that it names is not found; and every other end, a 500, is due to a value that
the tables or the driver refuse or the response model does not admit. No request is made to
fail by another.
-/
namespace TaskMgtApp.Work

open TaskMgtApp.Common
open TaskMgtApp.Lib.Program TaskMgtApp.Lib.Program.Prog
open TaskMgtApp.Lib.Interleaving TaskMgtApp.Lib.Rely TaskMgtApp.Lib.Rows TaskMgtApp.Lib.Listing

/-! ## Ends -/

/-- Whether the tables, the driver and the response model take the values of the request. -/
def Request.acceptable : Request → Bool
  | .createProject payload _ => HardDelete.projectCreateOk payload
  | .updateProject _ payload => decide payload.NonNull && HardDelete.projectUpdateOk payload
  | .createTask payload _ => HardDelete.taskCreateOk payload
  | .updateTask _ payload => decide payload.NonNull && HardDelete.taskUpdateOk payload
  | .listProjects pp _ => bigintOk pp.offset
  | .listTasks pp filters _ => filters.sendable && bigintOk pp.offset
  | .getProject _ | .deleteProject _ | .getTask _ | .deleteTask _ => true

/-- The reply is one to this request: it shows the row that the request names or draws, with the
values that the request supplies, or a page of rows that the request asks for. -/
def Request.Fits (env : Env) : Request → Reply → Prop
  | .createProject payload uuid4, .project p =>
      p.id = uuid4 ∧ p.name = payload.name.val ∧ p.description = payload.description
  | .getProject id, .project p => p.id = id
  | .updateProject id payload, .project p => p.id = id ∧ HardDelete.applyProject payload p = some p
  | .createTask payload uuid4, .task t =>
      t.id = uuid4 ∧ t.projectId = payload.projectId ∧ t.title = payload.title.val ∧
        t.description = payload.description ∧ t.status = payload.status ∧
        t.priority = payload.priority ∧ t.dueDate = payload.dueDate
  | .getTask id, .task t => t.id = id
  | .updateTask id payload, .task t => t.id = id ∧ HardDelete.applyTask payload t = some t
  | .deleteProject _, .noContent | .deleteTask _, .noContent => True
  | .listProjects pp _, .projects items _ page pageSize =>
      page = pp.page ∧ pageSize = pp.pageSize ∧ items.length ≤ pp.pageSize
  | .listTasks pp filters _, .tasks items _ page pageSize =>
      page = pp.page ∧ pageSize = pp.pageSize ∧ items.length ≤ pp.pageSize ∧
        ∀ t ∈ items, HardDelete.admits env filters t
  | _, _ => False

/-- All rows that the reply shows are rows of `u` in the tables `v`. -/
def Reply.OwnedBy (v : World) (u : UUID) : Reply → Prop
  | .project p => p.ownerId = u ∧ v.owns u p.id
  | .projects items _ _ _ => ∀ p ∈ items, p.ownerId = u ∧ v.owns u p.id
  | .task t => v.ownsTask u t.id
  | .tasks items _ _ _ => ∀ t ∈ items, v.ownsTask u t.id
  | .noContent => True

/-- The row that the request names. -/
def Request.target : Request → Option RowId
  | .getProject id | .updateProject id _ | .deleteProject id => some (.project id)
  | .createTask payload _ => some (.project payload.projectId)
  | .getTask id | .updateTask id _ | .deleteTask id => some (.task id)
  | _ => none

/-- An end that the request of `u` may have come to, now that the tables are `v`. -/
inductive Verdict (env : Env) (v : World) (u : UUID) (r : Request) : Except Exc Reply → Prop
  | success {reply : Reply} (haccept : r.acceptable) (hfits : r.Fits env reply)
      (howned : reply.OwnedBy v u) : Verdict env v u r (.ok reply)
  | noProject {id : UUID} (h : r.target = some (.project id)) :
      Verdict env v u r (.error (.projectNotFoundError "Project not found."))
  | noTask {id : UUID} (h : r.target = some (.task id)) :
      Verdict env v u r (.error (.taskNotFoundError "Task not found."))
  | refused {e : Exc} (he : e = .dbError ∨ e = .responseValidationError)
      (haccept : ¬ r.acceptable) : Verdict env v u r (.error e)

theorem Reply.OwnedBy.grows {v v' : World} {u : UUID} {reply : Reply} (h : reply.OwnedBy v u)
    (hgrows : v.Grows v') : reply.OwnedBy v' u := by
  cases reply with
  | project p => exact ⟨h.1, hgrows.owns h.2⟩
  | projects items total page pageSize => exact fun p hp => ⟨(h p hp).1, hgrows.owns (h p hp).2⟩
  | task t => exact hgrows.ownsTask h
  | tasks items total page pageSize => exact fun t ht => hgrows.ownsTask (h t ht)
  | noContent => trivial

theorem Verdict.grows {env : Env} {v v' : World} {u : UUID} {r : Request} {o : Except Exc Reply}
    (h : Verdict env v u r o) (hgrows : v.Grows v') : Verdict env v' u r o := by
  cases h with
  | success haccept hfits howned => exact .success haccept hfits (howned.grows hgrows)
  | noProject h => exact .noProject h
  | noTask h => exact .noTask h
  | refused he haccept => exact .refused he haccept

/-! ## Replies -/

section Replies
variable {α : Type} {supplied : Option (Option α)} {a b : α}

theorem getD_again (h : supplied.getD (some a) = some b) : supplied.getD (some b) = some b := by
  cases supplied with
  | none => rfl
  | some v => exact h

theorem getD_getD (supplied : Option α) (a : α) : supplied.getD (supplied.getD a) = supplied.getD a := by
  cases supplied <;> rfl

/-- Who has made an update sees the values in the reply. -/
theorem applyProject_again {payload : ProjectUpdate} {p q : ProjectRead}
    (h : HardDelete.applyProject payload p = some q) : HardDelete.applyProject payload q = some q := by
  obtain ⟨name, hname, hq⟩ := Option.bind_eq_some_iff.mp h
  obtain rfl := Option.some.inj hq
  unfold HardDelete.applyProject
  simp only [getD_again hname, getD_getD]
  rfl

theorem applyTask_again {payload : TaskUpdate} {t s : TaskRead}
    (h : HardDelete.applyTask payload t = some s) : HardDelete.applyTask payload s = some s := by
  obtain ⟨title, htitle, h⟩ := Option.bind_eq_some_iff.mp h
  obtain ⟨status, hstatus, h⟩ := Option.bind_eq_some_iff.mp h
  obtain ⟨priority, hpriority, hs⟩ := Option.bind_eq_some_iff.mp h
  obtain rfl := Option.some.inj hs
  unfold HardDelete.applyTask
  simp only [getD_again htitle, getD_again hstatus, getD_again hpriority, getD_getD]
  rfl

theorem applyProject_ids {payload : ProjectUpdate} {p q : ProjectRead}
    (h : HardDelete.applyProject payload p = some q) : q.id = p.id ∧ q.ownerId = p.ownerId := by
  obtain ⟨name, -, hq⟩ := Option.bind_eq_some_iff.mp h
  obtain rfl := Option.some.inj hq
  exact ⟨rfl, rfl⟩

theorem applyTask_id {payload : TaskUpdate} {t s : TaskRead}
    (h : HardDelete.applyTask payload t = some s) : s.id = t.id := by
  obtain ⟨title, -, h⟩ := Option.bind_eq_some_iff.mp h
  obtain ⟨status, -, h⟩ := Option.bind_eq_some_iff.mp h
  obtain ⟨priority, -, hs⟩ := Option.bind_eq_some_iff.mp h
  obtain rfl := Option.some.inj hs
  rfl

end Replies

/-! ## Lookups and ends -/

section Lookups
variable {α : Type} {env : Env} {Rely : World → World → Prop} {Q : Except Exc α → State → Prop}
  {w : World} {u id : UUID} {l : Session}

theorem ends_selectProject {k : Except Exc (Option Project) → WorkM α}
    (hmissing : ∀ v, Rely w v → Ends (exec env) Rely Q (k (.ok none)) (Session.empty.begin w, v))
    (hfound : ∀ p v, w.project? id u = some p → Rely w v →
      Ends (exec env) Rely Q (k (.ok (some p))) (Session.empty.begin w, v)) :
    Ends (exec env) Rely Q (.call (.selectProject id u) k) (.empty, w) := by
  intro v hv
  change Ends _ _ _ (k (.ok (w.project? id u))) _
  cases hp : w.project? id u with
  | none => exact hmissing v hv
  | some p => exact hfound p v hp hv

theorem ends_selectTask {k : Except Exc (Option Task) → WorkM α}
    (hmissing : ∀ v, Rely w v → Ends (exec env) Rely Q (k (.ok none)) (Session.empty.begin w, v))
    (hfound : ∀ t v, w.task? id u = some t → Rely w v →
      Ends (exec env) Rely Q (k (.ok (some t))) (Session.empty.begin w, v)) :
    Ends (exec env) Rely Q (.call (.selectTask id u) k) (.empty, w) := by
  intro v hv
  change Ends _ _ _ (k (.ok (w.task? id u))) _
  cases ht : w.task? id u with
  | none => exact hmissing v hv
  | some t => exact hfound t v ht hv

/-- A session without assigned attributes is committed. -/
theorem closing_clean {P : Except Exc α → World → Prop} {a : α} (hl : l.dirty = [])
    (h : P (.ok a) { w with projects := l.projects w, tasks := l.tasks w }) :
    Closing P (.ok a) (l, w) := by
  simp only [Closing, committed_clean l w hl, Option.elim_some]
  exact h

/-- A session with one assigned object of its user is committed, or the flush refuses the object. -/
theorem closing_one {P : Except Exc α → World → Prop} {a : α} {n : Nat} {y : Dirty} {ok : Bool}
    (r : Request) (hvalid : w.Valid) (hown : y.Own w u)
    (hflush : (Session.flushOne w ⟨some n, [], []⟩ y).isSome = ok)
    (haccept : ok = true → ∀ v, w.Grows v → P (.ok a) v)
    (hrefuse : ok = false → P (.error .dbError) w) : Closing P (.ok a) (⟨some n, [y], []⟩, w) := by
  simp only [Closing, Session.committed, flush_one, Option.getD_some]
  cases hy : Session.flushOne w ⟨some n, [], []⟩ y with
  | none =>
    rw [hy] at hflush
    exact hrefuse hflush.symm
  | some l' =>
    rw [hy] at hflush
    obtain rfl | ⟨x, rfl, hx, hupdate⟩ := flushOne_own (r := r) hown hy
    · exact haccept hflush.symm w (.refl w)
    · exact haccept hflush.symm (w.write x) (hx.effect hvalid (.inl hupdate)).grows

/-- The flush refuses an object that was loaded as a row if an assigned value cannot be stored. -/
theorem flushOne_project {p : Project} (hp : p.storable) (fields : List ProjectAttr) :
    (l.flushOne w (.project p fields)).isSome = fields.all ProjectAttr.storable := by
  rw [← changed_storable hp fields]
  unfold Session.flushOne Lib.Record.changed
  dsimp only
  split
  · rename_i hnone
    rw [hnone]
    rfl
  · split
    · rename_i hall
      rw [hall]
      rfl
    · rename_i hall
      rw [Bool.eq_false_iff.mpr hall]
      rfl

theorem flushOne_task {t : Task} (ht : t.storable (l.projects w)) (fields : List TaskAttr) :
    (l.flushOne w (.task t fields)).isSome = fields.all (TaskAttr.storable (l.projects w)) := by
  rw [← changed_storableTask ht fields]
  unfold Session.flushOne Lib.Record.changed
  dsimp only
  split
  · rename_i hnone
    rw [hnone]
    rfl
  · split
    · rename_i hall
      rw [hall]
      rfl
    · rename_i hall
      rw [Bool.eq_false_iff.mpr hall]
      rfl

theorem exec_refreshProject (env : Env) {p : Project}
    (h : (l.projects w).find? (fun p => p.id == id) = some p) :
    exec env (.refreshProject id) (l, w) = (.ok p, l.begin w, w) := by
  simp only [exec, h]

theorem exec_refreshTask (env : Env) {t : Task}
    (h : (l.tasks w).find? (fun t => t.id == id) = some t) :
    exec env (.refreshTask id) (l, w) = (.ok t, l.begin w, w) := by
  simp only [exec, h]

theorem respondProject_eq {p : Project} {r : ProjectRead} (h : ProjectRead.modelValidate p = some r) :
    respondProject p = .done (.ok (.project r)) := by
  rw [respondProject, h]
  rfl

theorem respondTask_eq {t : Task} {r : TaskRead} (h : TaskRead.modelValidate t = some r) :
    respondTask t = .done (.ok (.task r)) := by
  rw [respondTask, h]
  rfl

end Lookups

/-! ## Each request -/

/-- The request `r` of `u`, which begins in `w`, ends as it may, whatever others do beside it. -/
def Judged (env : Env) (w : World) (u : UUID) (r : Request) : Prop :=
  Ends (exec env) (Meanwhile r) (fun o s => Verdict env s.2 u r o) (r.program u) (.empty, w)

section Requests
variable {env : Env} {w : World} {u id : UUID}

/-- A body whose every end, and every end that the commit may make of it, is one of the request. -/
theorem judged_of_body {r : Request} (h : Ends (exec env) (Meanwhile r)
    (Closing fun o v => Verdict env v u r o) (r.endpoint u) (.empty, w)) : Judged env w u r :=
  ends_getDb (P := fun o v => Verdict env v u r o) (fun _ _ _ hv h => h.grows hv.grows) h

theorem judged_createProject {payload : ProjectCreate} {uuid4 : UUID}
    (hfresh : (Request.createProject payload uuid4).FreshIn w) :
    Judged env w u (.createProject payload uuid4) := by
  have hnew : ∀ {v : World}, (Request.createProject payload uuid4).FreshIn v →
      ∀ p ∈ v.projects, p.id ≠ uuid4 := fun h p hp heq => h.project p hp (congrArg some heq.symm)
  have haccepts := acceptsProject_new w.now u (hnew hfresh) payload
  refine judged_of_body fun w₁ hw₁ => ?_
  simp only [exec, projects_empty, clock_empty, haccepts] at hw₁ ⊢
  by_cases hok : HardDelete.projectCreateOk payload
  · simp only [hok, if_true] at hw₁ ⊢
    have hfind := find?_append_fresh (f := Project.id) (hnew (hw₁.fresh hfresh))
      (newProject_id w.now uuid4 u (some payload.name.val) payload.description)
    have hrefresh := exec_refreshProject env (w := w₁) (l := (Session.empty.begin w).write
      (.insertProject (newProject w.now uuid4 u (some payload.name.val) payload.description)))
      ((congrArg _ (projects_write ..)).trans hfind)
    intro w₂ _
    rw [hrefresh]
    change Ends _ _ _ (respondProject _) _
    rw [respondProject_eq rfl]
    refine closing_clean (P := fun o v => Verdict env v u (.createProject payload uuid4) o) rfl
      (.success hok ⟨rfl, rfl, rfl⟩ ⟨rfl, ?_⟩)
    exact World.owns_iff.mpr ⟨_, List.mem_append_right _ (List.mem_singleton_self _), rfl, rfl⟩
  · simp only [hok]
    exact .refused (.inl rfl) hok

theorem judged_getProject (hvalid : w.Valid) : Judged env w u (.getProject id) := by
  refine judged_of_body (ends_selectProject (fun v _ => .noProject rfl) fun p v hp hv => ?_)
  obtain ⟨hmem, -, howner, hid⟩ := project?_spec hp
  have hread := Project.modelValidate_eq (hvalid.projectRows p hmem)
  have howns : v.owns u p.id := hv.grows.owns (owns_of_mem (List.mem_of_find?_eq_some hp))
  change Ends _ _ _ (respondProject p) _
  rw [respondProject_eq hread]
  exact closing_clean (P := fun o v => Verdict env v u (.getProject id) o) rfl
    (.success rfl hid ⟨howner, howns⟩)

theorem judged_updateProject (hvalid : w.Valid) {payload : ProjectUpdate} :
    Judged env w u (.updateProject id payload) := by
  refine judged_of_body (ends_selectProject (fun v _ => .noProject rfl) fun p v hp hv => ?_)
  obtain ⟨hmem, -, howner, hid⟩ := project?_spec hp
  have hrow := hvalid.projectRows p hmem
  have hread := modelValidate_updateProject hrow payload
  intro v' hv'
  change Ends _ _ _ (respondProject (p.setattrs payload.modelDump)) _
  cases happly : HardDelete.applyProject payload p.read with
  | none =>
    have hnull : ¬ payload.NonNull := by
      rw [← applyProject_isSome, happly]
      exact Bool.false_ne_true
    rw [respondProject, hread, happly]
    exact .refused (.inr rfl) (by simp [Request.acceptable, hnull])
  | some q =>
    have hnull : payload.NonNull := by
      rw [← applyProject_isSome, happly]
      rfl
    rw [happly] at hread
    rw [respondProject_eq hread]
    have hflush := (flushOne_project (w := v') (l := ⟨some w.now, [], []⟩) hrow payload.modelDump).trans
      (modelDump_storable happly)
    obtain ⟨hqid, hqowner⟩ := applyProject_ids happly
    have howns : v'.owns u p.id :=
      (hv.trans hv').grows.owns (owns_of_mem (List.mem_of_find?_eq_some hp))
    have hown : Dirty.Own v' u (.project p payload.modelDump) :=
      ⟨howns, fun a ha => ProjectAttr.keeps_of_updatable (payload.modelDump_updatable a ha)⟩
    have hqowns : v'.owns u q.id := hqid.symm ▸ howns
    refine closing_one (P := fun o v => Verdict env v u (.updateProject id payload) o)
      (.updateProject id payload) ((hv.trans hv').valid hvalid) hown hflush
      (fun hok v'' hgrows => .success ?_ ⟨hqid.trans hid, applyProject_again happly⟩
        ⟨hqowner.trans howner, hgrows.owns hqowns⟩)
      (fun hno => .refused (.inl rfl) ?_)
    · simp [Request.acceptable, hnull, hok]
    · simp [Request.acceptable, hno]

theorem judged_deleteProject : Judged env w u (.deleteProject id) := by
  refine judged_of_body (ends_selectProject (fun v _ => .noProject rfl) fun p v hp _ => ?_)
  obtain ⟨-, hactive, -, -⟩ := project?_spec hp
  intro v' _
  refine Ends.bind (Q := fun o => Closing (fun o v => Verdict env v u (.deleteProject id) o)
    (o.map fun _ => Reply.noContent)) ?_ (fun _ _ h => h) fun _ _ h => h
  exact ends_deleteProject (I := fun _ => True) (fun _ _ _ h => h) trivial rfl rfl hactive fun m v'' _ =>
    closing_clean (P := fun o v => Verdict env v u (.deleteProject id) o) rfl
      (.success rfl trivial trivial)

theorem judged_createTask {payload : TaskCreate} {uuid4 : UUID}
    (hfresh : (Request.createTask payload uuid4).FreshIn w) :
    Judged env w u (.createTask payload uuid4) := by
  have hnew : ∀ {v : World}, (Request.createTask payload uuid4).FreshIn v →
      ∀ t ∈ v.tasks, t.id ≠ uuid4 := fun h t ht heq => h.task t ht (congrArg some heq.symm)
  refine judged_of_body (ends_selectProject (fun v _ => .noProject rfl) fun p v hp hv => ?_)
  obtain ⟨hmem, -, -, hid⟩ := project?_spec hp
  obtain ⟨p', hmem', hid', -⟩ := hv.grows.projects p hmem
  have haccepts := acceptsTask_new w.now (hnew (hv.fresh hfresh)) hmem' (hid'.trans hid)
  have hprojects : (Session.empty.begin w).projects v = v.projects := rfl
  have htasks : (Session.empty.begin w).tasks v = v.tasks := rfl
  have hclock : (Session.empty.begin w).clock v = w.now := rfl
  intro w₁ hw₁
  simp only [exec, hprojects, htasks, hclock, haccepts] at hw₁ ⊢
  by_cases hok : HardDelete.taskCreateOk payload
  · simp only [hok, if_true] at hw₁ ⊢
    have hfind := find?_append_fresh (f := Task.id) (hnew (hw₁.fresh (hv.fresh hfresh)))
      (newTask_id w.now uuid4 payload.projectId payload.modelDump)
    have hrefresh := exec_refreshTask env (w := w₁) (l := ((Session.empty.begin w).begin v).write
      (.insertTask (newTask w.now uuid4 payload.projectId payload.modelDump)))
      ((congrArg _ (tasks_write ..)).trans hfind)
    intro w₂ hw₂
    rw [hrefresh] at hw₂ ⊢
    change Ends _ _ _ (respondTask _) _
    rw [respondTask_eq rfl]
    have howns : w₂.owns u payload.projectId :=
      (hv.trans (hw₁.trans hw₂)).grows.owns (hid ▸ owns_of_mem (List.mem_of_find?_eq_some hp))
    refine closing_clean (P := fun o v => Verdict env v u (.createTask payload uuid4) o) rfl
      (.success hok ⟨rfl, rfl, rfl, rfl, rfl, rfl, rfl⟩ ?_)
    exact World.ownsTask_iff.mpr
      ⟨_, List.mem_append_right _ (List.mem_singleton_self _), rfl, howns⟩
  · simp only [hok]
    exact .refused (.inl rfl) hok

theorem judged_getTask (hvalid : w.Valid) : Judged env w u (.getTask id) := by
  refine judged_of_body (ends_selectTask (fun v _ => .noTask rfl) fun t v ht hv => ?_)
  obtain ⟨hmem, -, hid, -⟩ := task?_spec ht
  have hread := Task.modelValidate_eq (hvalid.taskRows t hmem)
  have howned : v.ownsTask u t.id := hv.grows.ownsTask (ownsTask_of_mem (List.mem_of_find?_eq_some ht))
  change Ends _ _ _ (respondTask t) _
  rw [respondTask_eq hread]
  exact closing_clean (P := fun o v => Verdict env v u (.getTask id) o) rfl (.success rfl hid howned)

theorem judged_updateTask (hvalid : w.Valid) {payload : TaskUpdate} :
    Judged env w u (.updateTask id payload) := by
  refine judged_of_body (ends_selectTask (fun v _ => .noTask rfl) fun t v ht hv => ?_)
  obtain ⟨hmem, -, hid, -⟩ := task?_spec ht
  have hrow := hvalid.taskRows t hmem
  have hread := modelValidate_updateTask hrow payload
  intro v' hv'
  change Ends _ _ _ (respondTask (t.setattrs payload.modelDump)) _
  cases happly : HardDelete.applyTask payload t.read with
  | none =>
    have hnull : ¬ payload.NonNull := by
      rw [← applyTask_isSome, happly]
      exact Bool.false_ne_true
    rw [respondTask, hread, happly]
    exact .refused (.inr rfl) (by simp [Request.acceptable, hnull])
  | some s =>
    have hnull : payload.NonNull := by
      rw [← applyTask_isSome, happly]
      rfl
    rw [happly] at hread
    rw [respondTask_eq hread]
    have hrow' : t.storable v'.projects := Task.storable_mono (fun p hp => by
      obtain ⟨p', hp', hid', -⟩ := (hv.trans hv').grows.projects p hp
      exact ⟨p', hp', hid'⟩) hrow
    have hflush := (flushOne_task (w := v') (l := ⟨some w.now, [], []⟩) hrow' payload.modelDump).trans
      (modelDump_storableTask happly)
    have howned : v'.ownsTask u t.id :=
      (hv.trans hv').grows.ownsTask (ownsTask_of_mem (List.mem_of_find?_eq_some ht))
    have hown : Dirty.Own v' u (.task t payload.modelDump) :=
      ⟨howned, fun a ha => updatable_keeps (payload.modelDump_updatable a ha)⟩
    have hsowned : v'.ownsTask u s.id := (applyTask_id happly).symm ▸ howned
    refine closing_one (P := fun o v => Verdict env v u (.updateTask id payload) o)
      (.updateTask id payload) ((hv.trans hv').valid hvalid) hown hflush
      (fun hok v'' hgrows => .success ?_ ⟨(applyTask_id happly).trans hid, applyTask_again happly⟩
        (hgrows.ownsTask hsowned))
      (fun hno => .refused (.inl rfl) ?_)
    · simp [Request.acceptable, hnull, hok]
    · simp [Request.acceptable, hno]

theorem judged_deleteTask : Judged env w u (.deleteTask id) := by
  refine judged_of_body (ends_selectTask (fun v _ => .noTask rfl) fun t v ht _ => ?_)
  obtain ⟨-, hactive, -, -⟩ := task?_spec ht
  refine Ends.bind (Q := fun o => Closing (fun o v => Verdict env v u (.deleteTask id) o)
    (o.map fun _ => Reply.noContent)) ?_ (fun _ _ h => h) fun _ _ h => h
  exact ends_deleteTask (I := fun _ => True) (fun _ _ _ h => h) trivial rfl rfl hactive fun m v' _ =>
    closing_clean (P := fun o v => Verdict env v u (.deleteTask id) o) rfl
      (.success rfl trivial trivial)

/-- A row of a page is one of the rows that are listed. -/
theorem mem_newest_page {M : Type} [Entity M] {ties : TieOrder} {offset limit : Nat} {rows : List M}
    {m : M} (h : m ∈ page offset limit (newest ties rows)) : m ∈ rows :=
  latestFirst_subset.mp (page_subset h)

theorem length_page_le {M : Type} (pp : PageParams) (rows : List M) :
    (page pp.offset pp.limit rows).length ≤ pp.pageSize := by
  unfold page
  exact List.length_take_le _ _

theorem judged_listProjects (hvalid : w.Valid) (pp : PageParams) (ties : TieOrder) :
    Judged env w u (.listProjects pp ties) := by
  refine judged_of_body fun w₁ hw₁ => ?_
  have hprojects : (Session.empty.begin w).projects w₁ = w₁.projects := rfl
  have hread := page_projects u (hw₁.valid hvalid).filled ties pp.offset pp.limit
  intro w₂ hw₂
  rw [exec_world Cmd.noConfusion] at hw₂
  simp only [exec, hprojects, bigintOk_limit, Bool.and_true]
  by_cases hsend : bigintOk pp.offset
  · simp only [hsend, if_true]
    change Ends _ _ _ (respond _) _
    rw [hread]
    refine closing_clean (P := fun o v => Verdict env v u (.listProjects pp ties) o) rfl
      (.success hsend ⟨rfl, rfl, ?_⟩ ?_)
    · rw [List.length_map]
      exact length_page_le pp _
    · intro r hr
      obtain ⟨p, hp, rfl⟩ := List.mem_map.mp hr
      have hlisted := mem_newest_page hp
      exact ⟨(mem_ownedProjects.mp hlisted).2.2, hw₂.grows.owns (owns_of_mem hlisted)⟩
  · simp only [hsend]
    exact .refused (.inl rfl) hsend

theorem judged_listTasks (hvalid : w.Valid) (pp : PageParams) (filters : TaskFilters)
    (ties : TieOrder) : Judged env w u (.listTasks pp filters ties) := by
  refine judged_of_body fun w₁ hw₁ => ?_
  simp only [exec, projects_empty, tasks_empty] at hw₁ ⊢
  by_cases hfilters : filters.sendable
  · simp only [hfilters, if_true] at hw₁ ⊢
    have hvalid₁ := hw₁.valid hvalid
    have hread := page_tasks env u hvalid₁.filled filters ties pp.offset pp.limit
    have hprojects : (Session.empty.begin w).projects w₁ = w₁.projects := rfl
    have htasks : (Session.empty.begin w).tasks w₁ = w₁.tasks := rfl
    intro w₂ hw₂
    rw [exec_world Cmd.noConfusion] at hw₂
    simp only [exec, hprojects, htasks, hfilters, bigintOk_limit, Bool.and_true, Bool.true_and]
    by_cases hsend : bigintOk pp.offset
    · simp only [hsend, if_true]
      change Ends _ _ _ (respond _) _
      unfold World.tasksFor at hread
      rw [hread]
      refine closing_clean (P := fun o v => Verdict env v u (.listTasks pp filters ties) o) rfl
        (.success (Bool.and_eq_true_iff.mpr ⟨hfilters, hsend⟩) ⟨rfl, rfl, ?_, ?_⟩ ?_)
      · rw [List.length_map]
        exact length_page_le pp _
      · intro r hr
        obtain ⟨t, ht, rfl⟩ := List.mem_map.mp hr
        obtain ⟨hmem, hadmits⟩ := List.mem_filter.mp (mem_newest_page ht)
        rw [← admits_read env filters (hvalid₁.taskRows t (mem_ownedTasks.mp hmem).1)]
        exact hadmits
      · intro r hr
        obtain ⟨t, ht, rfl⟩ := List.mem_map.mp hr
        have hlisted := List.mem_of_mem_filter (mem_newest_page ht)
        exact hw₂.grows.ownsTask (ownsTask_of_mem hlisted)
    · simp only [hsend]
      exact .refused (.inl rfl) fun h => hsend (Bool.and_eq_true_iff.mp h).2
  · simp only [hfilters]
    exact .refused (.inl rfl) fun h => hfilters (Bool.and_eq_true_iff.mp h).1

/-- Whatever others do beside it, a request ends as it may. -/
theorem judged_program (hvalid : w.Valid) (r : Request) (hfresh : r.FreshIn w) :
    Judged env w u r := by
  cases r with
  | createProject payload uuid4 => exact judged_createProject hfresh
  | listProjects pp ties => exact judged_listProjects hvalid pp ties
  | getProject id => exact judged_getProject hvalid
  | updateProject id payload => exact judged_updateProject hvalid
  | deleteProject id => exact judged_deleteProject
  | createTask payload uuid4 => exact judged_createTask hfresh
  | listTasks pp filters ties => exact judged_listTasks hvalid pp filters ties
  | getTask id => exact judged_getTask hvalid
  | updateTask id payload => exact judged_updateTask hvalid
  | deleteTask id => exact judged_deleteTask

end Requests

/-! ## The number of statements -/

section Statements
variable {α : Type} {u id : UUID}

theorem within_respond (reply : Option Reply) : (respond reply).Within 0 := by
  cases reply <;> exact trivial

theorem within_getDb {n : Nat} {body : WorkM α} (h : body.Within n) : (getDb body).Within (n + 1 + 1) :=
  Within.catch (h.bind fun _ => (within_perform _).bind fun _ => (within_done _ : Within 0 _))
    fun _ => (within_perform _).bind fun _ => (within_done _ : Within 0 _)

theorem within_projectGet : (ProjectService.get id u).Within 1 := by
  refine (within_perform _).bind (m := 0) fun found => ?_
  cases found <;> exact trivial

theorem within_taskGet : (TaskService.get id u).Within 1 := by
  refine (within_perform _).bind (m := 0) fun found => ?_
  cases found <;> exact trivial

theorem within_execute_last (c : Cmd) (f : c.Val → Except Exc α) :
    (execute c >>= fun v => .done (f v)).Within 1 :=
  (within_perform c).bind (m := 0) fun _ => within_done _

/-- No endpoint issues more statements than the delete of a project. -/
theorem within_endpoint (r : Request) : (r.endpoint u).Within 5 := by
  cases r with
  | createProject payload uuid4 =>
    have hadd : (ProjectRepository.add uuid4 u (some payload.name.val) payload.description).Within 2 :=
      (within_perform _).bind fun _ => within_perform _
    exact (hadd.bind fun _ => within_respond _).mono (by decide)
  | listProjects pp ties =>
    have hlist : (ProjectService.list u pp ties).Within 2 :=
      (within_perform _).bind fun total => within_execute_last _ fun items => .ok (items, total)
    exact (hlist.bind fun _ => within_respond _).mono (by decide)
  | getProject id => exact (within_projectGet.bind fun _ => within_respond _).mono (by decide)
  | updateProject id payload =>
    have hupdate : (ProjectService.update id u payload.modelDump).Within 2 :=
      within_projectGet.bind fun p => within_execute_last _ fun _ => .ok (p.setattrs _)
    exact (hupdate.bind fun _ => within_respond _).mono (by decide)
  | deleteProject id =>
    have hmark : ∀ p, (ProjectRepository.delete p).Within 3 := fun p =>
      (within_perform _).bind fun _ => (within_perform _).bind fun _ => within_perform _
    have hdelete : (ProjectService.delete id u).Within 5 :=
      within_projectGet.bind fun p => (within_perform _).bind fun _ => hmark p
    exact hdelete.bind (m := 0) fun _ => within_done _
  | createTask payload uuid4 =>
    have hadd : (TaskRepository.add uuid4 payload.projectId payload.modelDump).Within 2 :=
      (within_perform _).bind fun _ => within_perform _
    have hcreate : (TaskService.create u payload.projectId payload.modelDump uuid4).Within 3 := by
      refine (within_perform _).bind (m := 2) fun found => ?_
      cases found with
      | none => exact within_done _
      | some p => exact hadd
    exact (hcreate.bind fun _ => within_respond _).mono (by decide)
  | listTasks pp filters ties =>
    have hlist : (TaskService.list u filters pp ties).Within 2 :=
      (within_perform _).bind fun total => within_execute_last _ fun items => .ok (items, total)
    exact (hlist.bind fun _ => within_respond _).mono (by decide)
  | getTask id => exact (within_taskGet.bind fun _ => within_respond _).mono (by decide)
  | updateTask id payload =>
    have hupdate : (TaskService.update id u payload.modelDump).Within 2 :=
      within_taskGet.bind fun t => within_execute_last _ fun _ => .ok (t.setattrs _)
    exact (hupdate.bind fun _ => within_respond _).mono (by decide)
  | deleteTask id =>
    have hmark : ∀ t, (TaskRepository.delete t).Within 3 := fun t =>
      (within_perform _).bind fun _ => (within_perform _).bind fun _ => within_perform _
    have hdelete : (TaskService.delete id u).Within 4 := within_taskGet.bind fun t => hmark t
    exact (hdelete.bind (m := 0) fun _ => within_done _).mono (by decide)

theorem within_program (r : Request) : (r.program u).Within 7 := within_getDb (within_endpoint r)

end Statements

/-! ## Every order of the statements -/

section Runs
variable {ι : Type} [DecidableEq ι] {env : Env} {requests : ι → UUID × Request} {c : Threads ι}

/-- Every request will end as it may, whatever its neighbours do. -/
def AllAssured (env : Env) (requests : ι → UUID × Request) (c : Threads ι) : Prop :=
  ∀ i, Assured (machine env) (Meanwhile (requests i).2)
    (fun o s => Verdict env s.2 (requests i).1 (requests i).2 o) c i

omit [DecidableEq ι] in
theorem AllAssured.start {w : World} (hvalid : w.Valid) (hfresh : FreshRequests w requests) :
    AllAssured env requests (beside w requests) := fun i _ hw' =>
  judged_program (hw'.valid hvalid) (requests i).2 (hw'.fresh (hfresh.fresh i))

theorem AllAssured.step (hapart : ∀ i k, i ≠ k → (requests i).2.Apart (requests k).2)
    (hinv : OwnInv env requests c) (h : AllAssured env requests c) (a : Act ι Nat) :
    AllAssured env requests (c.step (machine env) a) := by
  intro i
  cases a with
  | drift n => exact (h i).others (fun _ _ _ => Meanwhile.trans) rfl (.clock _ _)
  | step j =>
    cases hp : (c.threads j).prog with
    | done o =>
      rw [Config.step_of_done hp]
      exact h i
    | call cmd k =>
      rw [Config.step_of_call hp]
      by_cases hij : i = j
      · subst hij
        exact (h i).issue Meanwhile.refl hp
      · exact (h i).others (fun _ _ _ => Meanwhile.trans) (Config.threads_issue_of_ne hij)
          (hinv.meanwhile hapart hp (Ne.symm hij))

theorem AllAssured.run (hapart : ∀ i k, i ≠ k → (requests i).2.Apart (requests k).2)
    (hinv : OwnInv env requests c) (h : AllAssured env requests c) (schedule : List (Act ι Nat)) :
    AllAssured env requests (c.run (machine env) schedule) := by
  induction schedule generalizing c with
  | nil => exact h
  | cons a as ih => exact ih (hinv.run hapart [a]) (h.step hapart hinv a)

end Runs

/-- For all requests side by side and every order of their statements: a request that has had
seven turns has ended; with a reply, which fits it and shows rows of its user only, if its
values can be taken, with a 404 for a row that it names, or with a 500 only if its values
cannot be taken. What others do beside it never makes it fail otherwise. -/
theorem requests_end_well {ι : Type} [DecidableEq ι] (env : Env) (w : World) (hvalid : w.Valid)
    (requests : ι → UUID × Request) (hfresh : FreshRequests w requests)
    (schedule : List (Act ι Nat)) :
    let c := (beside w requests).run (machine env) schedule
    ∀ i, (∀ o, c.outcome i = some o → Verdict env c.world (requests i).1 (requests i).2 o) ∧
      (7 ≤ turns i schedule → ∃ o, c.outcome i = some o) := by
  intro c i
  have hassured : AllAssured env requests c :=
    (AllAssured.start hvalid hfresh).run hfresh.apart (.start env hvalid hfresh) schedule
  constructor
  · intro o ho
    exact (hassured i).outcome Meanwhile.refl ho
  · intro hturns
    exact Config.exists_outcome_of_within (within_program (requests i).2) hturns

theorem requests_end_well_createBesideDelete :
    let c := (beside oneProject createBesideDelete).run (machine plainEnv)
      (List.replicate 7 [.step 0, .drift 1, .step 1]).flatten
    (∃ o, c.outcome 0 = some o ∧
      Verdict plainEnv c.world (createBesideDelete 0).1 (createBesideDelete 0).2 o) ∧
      ∃ o, c.outcome 1 = some o ∧
        Verdict plainEnv c.world (createBesideDelete 1).1 (createBesideDelete 1).2 o := by
  intro c
  have hwell := requests_end_well plainEnv oneProject oneProject_valid createBesideDelete
    createBesideDelete_fresh (List.replicate 7 [.step 0, .drift 1, .step 1]).flatten
  have hboth : ∀ i, ∃ o, c.outcome i = some o ∧
      Verdict plainEnv c.world (createBesideDelete i).1 (createBesideDelete i).2 o := by
    intro i
    obtain ⟨o, ho⟩ := (hwell i).2 (by revert i; decide)
    exact ⟨o, ho, (hwell i).1 o ho⟩
  exact ⟨hboth 0, hboth 1⟩

end TaskMgtApp.Work
