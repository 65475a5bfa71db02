import TaskMgtApp.Lib.Noninterference
import TaskMgtApp.Work.Confinement

/-!
# Whom a request is noticed by

A statement of a user reads and writes rows of that user (`exec_alike`). So in every
order of the statements the requests of one user are answered, and leave the rows of
that user, as if nobody else had made a request. A request that does not succeed, or
only reads, is noticed by nobody.
-/
namespace TaskMgtApp.Work

open TaskMgtApp.Common
open TaskMgtApp.Lib.Program TaskMgtApp.Lib.Program.Prog
open TaskMgtApp.Lib.Interleaving TaskMgtApp.Lib.Noninterference
open TaskMgtApp.Lib.Rows

/-! ## What a user sees -/

section Views
variable {w : World} {u : UUID} {r : Request} {x : Write} {xs : List Write}

theorem ownedProjects_view : ownedProjects (w.view u).projects u = ownedProjects w.projects u := by
  unfold ownedProjects active World.view
  rw [List.filter_filter, List.filter_filter, List.filter_filter]
  apply List.filter_congr
  intro p _
  cases (p.ownerId == u) <;> simp

/-- The tasks under a project of `u` are in the view of `u`. -/
theorem tasksUnder_view {projectId : UUID} (h : w.owns u projectId) :
    tasksUnder (w.view u).tasks projectId = tasksUnder w.tasks projectId := by
  unfold tasksUnder active World.view
  rw [List.filter_filter, List.filter_filter, List.filter_filter]
  apply List.filter_congr
  intro t _
  by_cases hid : t.projectId = projectId
  · simp [hid, h]
  · simp [hid]

theorem ownedTasks_view :
    ownedTasks (w.view u).projects (w.view u).tasks u = ownedTasks w.projects w.tasks u := by
  unfold ownedTasks
  rw [ownedProjects_view]
  unfold active World.view
  rw [List.filter_filter, List.filter_filter, List.filter_filter]
  apply List.filter_congr
  intro t _
  by_cases hany : ((ownedProjects w.projects u).any fun p => p.id == t.projectId) = true
  · obtain ⟨p, hp, hid⟩ := List.any_eq_true.mp hany
    have howns := owns_of_mem hp
    rw [beq_iff_eq.mp hid] at howns
    simp [howns]
  · simp [hany]

/-- A write of `u` is seen by `u` as it is. -/
theorem Write.Own.view (hvalid : w.Valid) (hvalid' : (w.write x).Valid) (h : x.Own w u r) :
    (w.write x).view u = (w.view u).write x := by
  cases x with
  | insertProject row =>
    obtain ⟨-, -, howner, -⟩ := h
    have hfresh : ∀ t ∈ w.tasks, row.id ≠ t.projectId := by
      intro t ht hid
      obtain ⟨p, hp, hpid⟩ := hvalid.parent ht
      have hkeyed : ((w.projects ++ [row]).map Project.id).Nodup := hvalid'.projectIds
      rw [List.map_append] at hkeyed
      exact (List.nodup_append.mp hkeyed).2.2 p.id (List.mem_map_of_mem hp) row.id
        (List.mem_singleton_self row.id) (hpid.trans hid.symm)
    have htasks : w.tasks.filter (fun t => (w.write (.insertProject row)).owns u t.projectId) =
        w.tasks.filter fun t => w.owns u t.projectId := by
      refine List.filter_congr fun t ht => ?_
      simp [World.owns, World.write, Write.onProjects, hfresh t ht]
    have hprojects : (w.projects ++ [row]).filter (fun p => p.ownerId == u) =
        w.projects.filter (fun p => p.ownerId == u) ++ [row] := by
      simp [List.filter_append, howner]
    simp only [World.view, World.write, Write.onProjects, Write.onTasks] at htasks ⊢
    rw [htasks, hprojects]
  | insertTask row =>
    obtain ⟨-, -, howns, -⟩ := h
    have htasks : (w.tasks ++ [row]).filter (fun t => w.owns u t.projectId) =
        w.tasks.filter (fun t => w.owns u t.projectId) ++ [row] := by
      simp [List.filter_append, howns]
    change (⟨w.now, _, (w.tasks ++ [row]).filter fun t => w.owns u t.projectId⟩ : World) = _
    rw [htasks]
    rfl
  | updateProject id fields n =>
    obtain ⟨-, hfields⟩ := h
    have hkeeps : ∀ p : Project,
        (if p.id = id then { p.setattrs fields with updatedAt := n } else p).ownerId = p.ownerId ∧
        (if p.id = id then { p.setattrs fields with updatedAt := n } else p).id = p.id := by
      intro p
      split
      · exact ⟨(Project.setattrs_keep (fun a ha => (hfields a ha).2) p).1, Project.setattrs_id p fields⟩
      · exact ⟨rfl, rfl⟩
    have howns : ∀ projectId, (w.write (.updateProject id fields n)).owns u projectId =
        w.owns u projectId := by
      intro projectId
      simp only [World.owns, World.write, Write.onProjects, List.any_map]
      congr 1
      funext p
      rw [Function.comp_apply, (hkeeps p).1, (hkeeps p).2]
    have hprojects : (Write.onProjects w.projects (.updateProject id fields n)).filter
        (fun p => p.ownerId == u) =
        Write.onProjects (w.projects.filter fun p => p.ownerId == u) (.updateProject id fields n) := by
      simp only [Write.onProjects, List.filter_map]
      congr 1
      refine List.filter_congr fun p _ => ?_
      rw [Function.comp_apply, (hkeeps p).1]
    simp only [World.view, howns]
    simp only [World.write, hprojects]
    rfl
  | updateTasks ids fields n =>
    obtain ⟨-, hfields⟩ := h
    have hkeeps : ∀ t : Task,
        (if t.id ∈ ids then { t.setattrs fields with updatedAt := n } else t).projectId =
          t.projectId := by
      intro t
      split
      · exact (Task.setattrs_keep (fun a ha => (hfields a ha).2) t).1
      · rfl
    have htasks : (Write.onTasks w.tasks (.updateTasks ids fields n)).filter
        (fun t => w.owns u t.projectId) =
        Write.onTasks (w.tasks.filter fun t => w.owns u t.projectId) (.updateTasks ids fields n) := by
      simp only [Write.onTasks, List.filter_map]
      congr 1
      refine List.filter_congr fun t _ => ?_
      rw [Function.comp_apply, hkeeps t]
    change (⟨w.now, _, (Write.onTasks w.tasks (.updateTasks ids fields n)).filter
      fun t => w.owns u t.projectId⟩ : World) = _
    rw [htasks]
    rfl

/-- A commit of `u` is seen by `u` as it is. -/
theorem OwnChain.view (h : OwnChain u r w xs) :
    (xs.foldl World.write w).view u = xs.foldl World.write (w.view u) := by
  induction h with
  | nil => rfl
  | cons hvalid hx heffect _ ih =>
    rw [List.foldl_cons, ih, hx.view hvalid (heffect.valid hvalid)]
    rfl

end Views

/-! ## One statement in two worlds -/

/-- The same rows of `u`, at the same moment. -/
def SameView (u : UUID) (v w : World) : Prop := v.view u = w.view u

section Statements
variable {env : Env} {u : UUID} {r : Request} {φ ψ φ' ψ' : OwnPhase} {l l' : Session} {v w : World}
  {c : Cmd}

theorem SameView.now (h : SameView u v w) : v.now = w.now := by
  have hnow : (v.view u).now = (w.view u).now := by rw [h]
  exact hnow

theorem SameView.ownedProjects (h : SameView u v w) :
    ownedProjects v.projects u = ownedProjects w.projects u := by
  rw [← ownedProjects_view, h, ownedProjects_view]

theorem SameView.ownedTasks (h : SameView u v w) :
    ownedTasks v.projects v.tasks u = ownedTasks w.projects w.tasks u := by
  rw [← ownedTasks_view, h, ownedTasks_view]

theorem SameView.tasksUnder (h : SameView u v w) {projectId : UUID} (hv : v.owns u projectId)
    (hw : w.owns u projectId) : tasksUnder v.tasks projectId = tasksUnder w.tasks projectId := by
  rw [← tasksUnder_view hv, h, tasksUnder_view hw]

theorem clock_congr (h : v.now = w.now) : l.clock v = l.clock w := by
  rw [Session.clock, Session.clock, h]

theorem begin_congr (h : v.now = w.now) : l.begin v = l.begin w := by
  rw [Session.begin, Session.begin, clock_congr h]

theorem flushOne_congr (h : v.now = w.now) {y : Dirty} (hy : y.Own v u) :
    l.flushOne v y = l.flushOne w y := by
  cases y with
  | project loaded fields => simp only [Session.flushOne, clock_congr h]
  | task loaded fields =>
    have hstorable : (fields.filter fun a => loaded.setattr a ≠ loaded).all
        (TaskAttr.storable (l.projects v)) =
        (fields.filter fun a => loaded.setattr a ≠ loaded).all
          (TaskAttr.storable (l.projects w)) := by
      rw [Bool.eq_iff_iff, List.all_eq_true, List.all_eq_true]
      refine forall₂_congr fun a ha => ?_
      have hkeeps := hy.2 a (List.mem_of_mem_filter ha)
      exact ⟨TaskAttr.storable_of_keeps hkeeps, TaskAttr.storable_of_keeps hkeeps⟩
    simp only [Session.flushOne, clock_congr h, hstorable]

/-- What is flushed depends on the session and the clock. -/
theorem flush_congr (h : v.now = w.now) (hdirty : ∀ y ∈ l.dirty, y.Own v u) :
    l.flush v = l.flush w := by
  unfold Session.flush
  rw [begin_congr h]
  generalize ({ l.begin w with dirty := [] } : Session) = s
  generalize l.dirty = ys at hdirty
  induction ys generalizing s with
  | nil => rfl
  | cons y ys ih =>
    obtain ⟨hy, hys⟩ := List.forall_mem_cons.mp hdirty
    rw [List.foldlM_cons, List.foldlM_cons, flushOne_congr h hy]
    cases Session.flushOne w s y with
    | none => rfl
    | some s' => exact ih s' hys

/-- A new row is accepted for what it is. -/
theorem acceptsProject_of_fresh {row : Project} (hfresh : r.FreshIn w)
    (hdraw : r.projectDraw = some row.id) : acceptsProject w.projects row = row.storable := by
  have hnew : w.projects.all (fun p => p.id ≠ row.id) = true := by
    simp only [List.all_eq_true, decide_eq_true_eq]
    exact fun p hp hid => hfresh.project p hp (hdraw.trans (congrArg some hid.symm))
  rw [acceptsProject, hnew, Bool.true_and]

theorem acceptsTask_of_fresh {row : Task} (hfresh : r.FreshIn w)
    (hdraw : r.taskDraw = some row.id) :
    acceptsTask w.projects w.tasks row = row.storable w.projects := by
  have hnew : w.tasks.all (fun t => t.id ≠ row.id) = true := by
    simp only [List.all_eq_true, decide_eq_true_eq]
    exact fun t ht hid => hfresh.task t ht (hdraw.trans (congrArg some hid.symm))
  rw [acceptsTask, hnew, Bool.true_and]

/-- What a session that has written nothing sees of the rows of `u`. -/
theorem owned_congr (h : SameView u v w) (hwritten : l.written = []) :
    ownedProjects (l.projects v) u = ownedProjects (l.projects w) u ∧
      ownedTasks (l.projects v) (l.tasks v) u = ownedTasks (l.projects w) (l.tasks w) u := by
  rw [projects_of_clean hwritten, projects_of_clean hwritten, tasks_of_clean hwritten,
    tasks_of_clean hwritten]
  exact ⟨h.ownedProjects, h.ownedTasks⟩

/-- The lists and the counts of the rows of `u`. -/
theorem lists_alike (env : Env) (h : SameView u v w) (hwritten : l.written = []) (hc : c.Lists u) :
    Agree (SameView u) (exec env c (l, v)) (exec env c (l, w)) := by
  obtain ⟨hprojects, htasks⟩ := owned_congr h hwritten
  have hbegin := begin_congr (l := l) h.now
  cases hc with
  | countProjects =>
    simp only [exec, hprojects, hbegin]
    exact ⟨rfl, rfl, h⟩
  | selectProjects | countTasks | selectTasks =>
    simp only [exec, hprojects, htasks, hbegin]
    split <;> exact ⟨rfl, rfl, h⟩

/-- The row of a new project is taken in both worlds or in neither. -/
theorem insertProject_alike (env : Env) (h : SameView u v w) (hwritten : l.written = [])
    (hv : r.FreshIn v) (hw : r.FreshIn w) {id : UUID} (hdraw : r.projectDraw = some id)
    (name description : Option String) :
    Agree (SameView u) (exec env (.insertProject id u name description) (l, v))
      (exec env (.insertProject id u name description) (l, w)) := by
  have haccepts : acceptsProject (l.projects v) (newProject (l.clock w) id u name description) =
      acceptsProject (l.projects w) (newProject (l.clock w) id u name description) := by
    rw [projects_of_clean hwritten, projects_of_clean hwritten, acceptsProject_of_fresh hv hdraw,
      acceptsProject_of_fresh hw hdraw]
  simp only [exec, clock_congr h.now, haccepts, begin_congr h.now]
  split <;> exact ⟨rfl, rfl, h⟩

theorem Task.storable_congr {rows rows' : List Project} {t : Task}
    (h : (rows.any fun p => p.id == t.projectId) = rows'.any fun p => p.id == t.projectId) :
    t.storable rows = t.storable rows' := by
  simp only [Task.storable, List.all_cons, List.all_nil, TaskAttr.storable, h]

theorem parent_of_owns {projectId : UUID} (h : w.owns u projectId) :
    (w.projects.any fun p => p.id == projectId) = true := by
  obtain ⟨p, hp, hid, -⟩ := World.owns_iff.mp h
  exact List.any_eq_true.mpr ⟨p, hp, beq_iff_eq.mpr hid⟩

theorem insertTask_alike (env : Env) (h : SameView u v w) (hwritten : l.written = [])
    (hv : r.FreshIn v) (hw : r.FreshIn w) {id projectId : UUID} (hdraw : r.taskDraw = some id)
    (hownv : v.owns u projectId) (hownw : w.owns u projectId) {fields : List TaskAttr}
    (hfields : ∀ a ∈ fields, a.updatable) :
    Agree (SameView u) (exec env (.insertTask id projectId fields) (l, v))
      (exec env (.insertTask id projectId fields) (l, w)) := by
  have hid : (newTask (l.clock w) id projectId fields).id = id := newTask_id ..
  have hparent : (newTask (l.clock w) id projectId fields).projectId = projectId :=
    (Task.setattrs_keeps _ hfields).1
  have haccepts : acceptsTask (l.projects v) (l.tasks v) (newTask (l.clock w) id projectId fields) =
      acceptsTask (l.projects w) (l.tasks w) (newTask (l.clock w) id projectId fields) := by
    rw [projects_of_clean hwritten, projects_of_clean hwritten, tasks_of_clean hwritten,
      tasks_of_clean hwritten, acceptsTask_of_fresh hv (hdraw.trans (congrArg some hid.symm)),
      acceptsTask_of_fresh hw (hdraw.trans (congrArg some hid.symm))]
    refine Task.storable_congr ?_
    rw [hparent, parent_of_owns hownv, parent_of_owns hownw]
  simp only [exec, clock_congr h.now, haccepts, begin_congr h.now]
  split <;> exact ⟨rfl, rfl, h⟩

/-- The statements that follow a lookup of a project. -/
theorem OwnMove.parent {s : State} {projectId : UUID} (hm : OwnMove u r φ c s φ')
    (hc : c = .softDeleteByProject projectId ∨ ∃ id fields, c = .insertTask id projectId fields) :
    ∃ p, φ = .project p ∧ p.id = projectId := by
  obtain rfl | ⟨id, fields, rfl⟩ := hc
  · cases hm with
    | list hφ hc => cases hc
    | cascade => exact ⟨_, rfl, rfl⟩
  · cases hm with
    | list hφ hc => cases hc
    | insertTask | refuseTask => exact ⟨_, rfl, rfl⟩

theorem OwnMove.reread {s : State} {id : UUID} (hm : OwnMove u r φ c s φ')
    (hc : c = .refreshProject id ∨ c = .refreshTask id) : φ = .created := by
  obtain rfl | rfl := hc
  all_goals
    cases hm with
    | list hφ hc => cases hc
    | _ => rfl

/-- The one write of a session that has inserted a row. -/
theorem OwnSession.inserted (h : OwnSession u r .created l w) :
    (∃ row, l.written = [.insertProject row] ∧ r.projectDraw = some row.id) ∨
      ∃ row, l.written = [.insertTask row] ∧ r.taskDraw = some row.id := by
  obtain ⟨⟨x, hwritten, hinsert⟩, -⟩ := h.created rfl
  have hx : x.Own w u r := h.writes x (hwritten ▸ List.mem_singleton_self x)
  cases x with
  | insertProject row => exact .inl ⟨row, hwritten, hx.2.2.2⟩
  | insertTask row => exact .inr ⟨row, hwritten, hx.2.2.2⟩
  | updateProject | updateTasks => exact absurd trivial hinsert

/-- A new row is read again as it was inserted. -/
theorem rereadProject_eq (env : Env) (h : OwnSession u r .created l w) (hfresh : r.FreshIn w)
    {id : UUID} (hdraw : r.projectDraw = some id) :
    ∃ row, l.written = [.insertProject row] ∧
      exec env (.refreshProject id) (l, w) = (.ok row, l.begin w, w) := by
  obtain ⟨row, hwritten, hrow⟩ | ⟨row, -, hrow⟩ := h.inserted
  · obtain rfl := Option.some.inj (hrow.symm.trans hdraw)
    have hprojects : l.projects w = w.projects ++ [row] := by
      rw [Session.projects, hwritten]
      rfl
    have hnew : ∀ p ∈ w.projects, p.id ≠ row.id :=
      fun p hp hid => hfresh.project p hp (hdraw.trans (congrArg some hid.symm))
    have hfind := find?_append_fresh hnew rfl
    refine ⟨row, hwritten, ?_⟩
    simp only [exec, hprojects, hfind]
  · rw [r.taskDraw_of_projectDraw hdraw] at hrow
    cases hrow

theorem rereadTask_eq (env : Env) (h : OwnSession u r .created l w) (hfresh : r.FreshIn w)
    {id : UUID} (hdraw : r.taskDraw = some id) :
    ∃ row, l.written = [.insertTask row] ∧
      exec env (.refreshTask id) (l, w) = (.ok row, l.begin w, w) := by
  obtain ⟨row, -, hrow⟩ | ⟨row, hwritten, hrow⟩ := h.inserted
  · rw [r.projectDraw_of_taskDraw hdraw] at hrow
    cases hrow
  · obtain rfl := Option.some.inj (hrow.symm.trans hdraw)
    have htasks : l.tasks w = w.tasks ++ [row] := by
      rw [Session.tasks, hwritten]
      rfl
    have hnew : ∀ t ∈ w.tasks, t.id ≠ row.id :=
      fun t ht hid => hfresh.task t ht (hdraw.trans (congrArg some hid.symm))
    have hfind := find?_append_fresh hnew rfl
    refine ⟨row, hwritten, ?_⟩
    simp only [exec, htasks, hfind]

/-- The cascade stamps the tasks under a project of `u`. -/
theorem cascade_alike (env : Env) (h : SameView u v w) (hwritten : l.written = []) {projectId : UUID}
    (hv : v.owns u projectId) (hw : w.owns u projectId) :
    Agree (SameView u) (exec env (.softDeleteByProject projectId) (l, v))
      (exec env (.softDeleteByProject projectId) (l, w)) := by
  have hids := h.tasksUnder hv hw
  unfold tasksUnder at hids
  simp only [exec, tasks_of_clean hwritten, hids, clock_congr h.now, begin_congr h.now]
  exact ⟨rfl, rfl, h⟩

theorem commit_alike (env : Env) (h : SameView u v w) (hv : v.Valid) (hw : w.Valid)
    (hsv : OwnSession u r φ l v) (hsw : OwnSession u r ψ l w) (hφ : φ.isOpen) (hψ : ψ.isOpen) :
    Agree (SameView u) (exec env .commit (l, v)) (exec env .commit (l, w)) := by
  have hflush := flush_congr (l := l) h.now hsv.dirty
  cases hl : l.flush w with
  | none =>
    rw [hl] at hflush
    simp only [exec, hflush, hl]
    exact ⟨rfl, rfl, h⟩
  | some l' =>
    rw [hl] at hflush
    simp only [exec, hflush, hl]
    refine ⟨rfl, rfl, ?_⟩
    change (l'.after v).view u = (l'.after w).view u
    rw [after_eq_foldl, after_eq_foldl, ((hsv.flush hflush).1.chain hφ hv).view,
      ((hsw.flush hl).1.chain hψ hw).view, show v.view u = w.view u from h]

/-- A statement of `u` is answered alike, and has the same effect, where the rows of `u`
are the same. -/
theorem exec_alike (env : Env) (h : SameView u v w) (hv : v.Valid) (hw : w.Valid)
    (hsv : OwnSession u r φ l v) (hsw : OwnSession u r ψ l w) (hm : OwnMove u r φ c (l, v) φ')
    (hm' : OwnMove u r ψ c (l, w) ψ') :
    Agree (SameView u) (exec env c (l, v)) (exec env c (l, w)) := by
  have hnow := h.now
  have hψ := hm'.isOpen
  have hfresh := hsv.fresh_of_open hm.isOpen
  have hfresh' := hsw.fresh_of_open hψ
  cases hm with
  | list hφ hc =>
    have hwritten : l.written = [] := by obtain rfl | rfl := hφ <;> exact (hsv.clean rfl).1
    exact lists_alike env h hwritten hc
  | findProject | missProject =>
    obtain ⟨hprojects, -⟩ := owned_congr h (hsv.clean rfl).1
    simp only [exec, hprojects, begin_congr hnow]
    exact ⟨rfl, rfl, h⟩
  | findTask | missTask =>
    obtain ⟨-, htasks⟩ := owned_congr h (hsv.clean rfl).1
    simp only [exec, htasks, begin_congr hnow]
    exact ⟨rfl, rfl, h⟩
  | insertProject hdraw | refuseProject hdraw =>
    exact insertProject_alike env h (hsv.clean rfl).1 hfresh hfresh' hdraw _ _
  | @insertTask p id fields _ _ hdraw hfields | @refuseTask p id fields _ _ hdraw hfields =>
    obtain ⟨p', rfl, hid⟩ := hm'.parent (.inr ⟨id, fields, rfl⟩)
    exact insertTask_alike env h (hsv.clean rfl).1 hfresh hfresh' hdraw (hsv.project p rfl)
      (hid ▸ hsw.project p' rfl) hfields
  | rereadProject hdraw =>
    obtain ⟨row, hrow, hread⟩ := rereadProject_eq env hsv hfresh hdraw
    obtain ⟨row', hrow', hread'⟩ := rereadProject_eq env (hm'.reread (.inl rfl) ▸ hsw) hfresh' hdraw
    rw [hrow] at hrow'
    cases hrow'
    rw [hread, hread', begin_congr hnow]
    exact ⟨rfl, rfl, h⟩
  | rereadTask hdraw =>
    obtain ⟨row, hrow, hread⟩ := rereadTask_eq env hsv hfresh hdraw
    obtain ⟨row', hrow', hread'⟩ := rereadTask_eq env (hm'.reread (.inr rfl) ▸ hsw) hfresh' hdraw
    rw [hrow] at hrow'
    cases hrow'
    rw [hread, hread', begin_congr hnow]
    exact ⟨rfl, rfl, h⟩
  | assignProject | assignTask | markProject | markTask => exact ⟨rfl, rfl, h⟩
  | @cascade p =>
    obtain ⟨p', rfl, hid⟩ := hm'.parent (.inl rfl)
    exact cascade_alike env h (hsv.clean rfl).1 (hsv.project p rfl)
      (hid ▸ hsw.project p' rfl)
  | clockProject | clockTask => exact ⟨congrArg Except.ok hnow, rfl, h⟩
  | flush hφ =>
    simp only [exec, flush_congr hnow hsv.dirty]
    split <;> exact ⟨rfl, rfl, h⟩
  | commit hφ | refuse hφ => exact commit_alike env h hv hw hsv hsw hφ hψ
  | rollback => exact ⟨rfl, rfl, h⟩

end Statements

/-! ## Every order of the statements -/

section Runs
variable {ι : Type} [DecidableEq ι]

variable {env : Env} {requests : ι → UUID × Request} {c d : Threads ι} {i : ι} {cmd : Cmd}
  {k : Except Exc cmd.Val → WorkM Reply}

/-- A statement of another user leaves the rows of `u` as they are. -/
theorem OwnInv.respect (h : OwnInv env requests c) (hp : (c.threads i).prog = .call cmd k) {u : UUID}
    (hne : (requests i).1 ≠ u) : SameView u (c.issue (machine env) i cmd k).world c.world := by
  obtain ⟨φ, hobey, hsound⟩ := h
  obtain ⟨φ', hm, -⟩ := hobey.issue hp
  refine hsound.issue_induction (P := fun v => SameView u v c.world) hm ?_ rfl
  exact fun v x hv _ heffect hview => (heffect.view hv hne).trans hview

/-- A statement of `u` acts alike where `u` has the same rows. -/
theorem OwnInv.consistent (hc : OwnInv env requests c) (hd : OwnInv env requests d)
    (hp : (c.threads i).prog = .call cmd k) (hthread : c.threads i = d.threads i)
    (hview : SameView (requests i).1 c.world d.world) :
    Agree (SameView (requests i).1) ((machine env).exec cmd ((c.threads i).locals, c.world))
      ((machine env).exec cmd ((c.threads i).locals, d.world)) := by
  obtain ⟨φ, hobey, hsound⟩ := hc
  obtain ⟨ψ, hobey', hsound'⟩ := hd
  have hp' : (d.threads i).prog = .call cmd k := by rw [← hthread, hp]
  obtain ⟨φ', hm, -⟩ := hobey.issue hp
  obtain ⟨ψ', hm', -⟩ := hobey'.issue hp'
  have hsession := hsound'.sessions i
  rw [← hthread] at hm' hsession
  exact exec_alike env hview hsound.valid hsound'.valid (hsound.sessions i) hsession hm hm'

theorem SameView.drift {u : UUID} {v w : World} (h : SameView u v w) (n : Nat) :
    SameView u { v with now := v.now + n } { w with now := w.now + n } := by
  have hprojects : (v.view u).projects = (w.view u).projects := by rw [h]
  have htasks : (v.view u).tasks = (w.view u).tasks := by rw [h]
  change (⟨v.now + n, (v.view u).projects, (v.view u).tasks⟩ : World) =
    ⟨w.now + n, (w.view u).projects, (w.view u).tasks⟩
  rw [h.now, hprojects, htasks]

/-- The requests of other users go unnoticed. -/
theorem own_unwinding (env : Env) (hapart : ∀ i k, i ≠ k → (requests i).2.Apart (requests k).2)
    (u : UUID) : Unwinding (machine env) (fun i => (requests i).1 = u) (SameView u)
      (OwnInv env requests) (fun _ _ => True) where
  inv c a hc := hc.run hapart [a]
  drift v w n h := h.drift n
  respect c i cmd k w hc hi hp _ hview := (hc.respect hp hi).trans hview
  consistent c d i cmd k hc hd hi hp hthread hview := by
    subst hi
    exact hc.consistent hd hp hthread hview

/-- For all requests side by side, every order of their statements and every user: the
requests of the user are answered as if nobody else had taken a step, and leave the
same rows of the user. -/
theorem interleaved_noninterference (env : Env) (w : World) (hvalid : w.Valid)
    (requests : ι → UUID × Request) (hfresh : FreshRequests w requests) (u : UUID)
    (schedule : List (Act ι Nat)) :
    let full := (beside w requests).run (machine env) schedule
    let alone := (beside w requests).run (machine env)
      (purge (fun i => (requests i).1 = u) schedule)
    (∀ i, (requests i).1 = u → full.outcome i = alone.outcome i) ∧
      full.world.view u = alone.world.view u := by
  intro full alone
  have hstart := OwnInv.start env hvalid hfresh
  have halike : Aligned (fun i => (requests i).1 = u) (SameView u) full alone :=
    (own_unwinding env hfresh.apart u).run_purge hstart hstart ⟨fun _ _ => rfl, rfl⟩
      (Config.along_of_forall (fun _ _ => trivial) schedule)
  refine ⟨fun i hi => ?_, halike.world⟩
  rw [Config.outcome, Config.outcome, halike.threads i hi]

end Runs

/-! ### Bob beside Ada -/

/-- Ada adds a task to her project, which Bob tries to delete. -/
def bobBesideAda : Fin 2 → UUID × Request
  | 0 => (plainUuid .zero .zero, .createTask chapterTwo (plainUuid .two .one))
  | 1 => (plainUuid .zero .one, .deleteProject (plainUuid .one .zero))

theorem bobBesideAda_fresh : FreshRequests oneProject bobBesideAda := by decide +kernel

def turnsOfBoth : List (Act (Fin 2) Nat) :=
  [.step 0, .step 1, .step 1, .drift 105, .step 0, .step 1, .step 0, .step 0]

theorem interleaved_noninterference_bobBesideAda :
    let full := (beside oneProject bobBesideAda).run (machine plainEnv) turnsOfBoth
    let alone := (beside oneProject bobBesideAda).run (machine plainEnv)
      (purge (fun i => (bobBesideAda i).1 = plainUuid .zero .zero) turnsOfBoth)
    (∀ i, (bobBesideAda i).1 = plainUuid .zero .zero → full.outcome i = alone.outcome i) ∧
      full.world.view (plainUuid .zero .zero) = alone.world.view (plainUuid .zero .zero) :=
  interleaved_noninterference plainEnv oneProject oneProject_valid bobBesideAda bobBesideAda_fresh
    (plainUuid .zero .zero) turnsOfBoth

/-! ## Requests that leave no trace -/

/-- The requests that look at rows only. -/
def Request.readOnly : Request → Bool
  | .listProjects .. | .getProject _ | .listTasks .. | .getTask _ => true
  | _ => false

def Cmd.reads : Cmd → Bool
  | .selectProject .. | .countProjects _ | .selectProjects .. | .selectTask .. | .countTasks ..
  | .selectTasks .. | .commit | .rollback => true
  | _ => false

section Traces
variable {env : Env} {u : UUID} {r : Request} {l : Session} {w : World} {c : Cmd}

theorem only_getDb {α : Type} {Q : Cmd → Prop} {body : WorkM α} (hbody : body.Only Q)
    (hcommit : Q .commit) (hrollback : Q .rollback) : (getDb body).Only Q :=
  .catch (.bind hbody fun _ => .bind (only_perform.mpr hcommit) fun _ => trivial)
    fun _ => .bind (only_perform.mpr hrollback) fun _ => trivial

theorem respond_reads (reply : Option Reply) : (respond reply).Only (Cmd.reads ·) := by
  cases reply <;> exact trivial

theorem reads_of_readOnly (h : r.readOnly) : (r.program u).Only (Cmd.reads ·) := by
  refine only_getDb ?_ rfl rfl
  cases r with
  | listProjects pageParams ties =>
    refine .bind ?_ fun _ => respond_reads _
    exact .bind (only_perform.mpr rfl) fun _ => .bind (only_perform.mpr rfl) fun _ => trivial
  | listTasks pageParams filters ties =>
    refine .bind ?_ fun _ => respond_reads _
    exact .bind (only_perform.mpr rfl) fun _ => .bind (only_perform.mpr rfl) fun _ => trivial
  | getProject projectId =>
    refine .bind (.bind (only_perform.mpr rfl) fun p => ?_) fun _ => respond_reads _
    cases p <;> exact trivial
  | getTask taskId =>
    refine .bind (.bind (only_perform.mpr rfl) fun t => ?_) fun _ => respond_reads _
    cases t <;> exact trivial
  | _ => cases h

/-- A session that only reads has nothing to write. -/
theorem clean_of_reads (hc : c.reads) (hwritten : l.written = []) (hdirty : l.dirty = []) :
    ((exec env c (l, w)).2.1.written = [] ∧ (exec env c (l, w)).2.1.dirty = []) ∧
      (exec env c (l, w)).2.2 = w := by
  cases c with
  | selectProject | countProjects | selectTask => exact ⟨⟨hwritten, hdirty⟩, rfl⟩
  | selectProjects | countTasks | selectTasks =>
    simp only [exec]
    split <;> exact ⟨⟨hwritten, hdirty⟩, rfl⟩
  | commit =>
    simp only [exec, flush_clean l w hdirty, projects_begin, tasks_begin]
    rw [projects_of_clean hwritten, tasks_of_clean hwritten]
    exact ⟨⟨rfl, rfl⟩, rfl⟩
  | rollback => exact ⟨⟨rfl, rfl⟩, rfl⟩
  | _ => cases hc

variable {ι : Type} [DecidableEq ι] {requests : ι → UUID × Request} {c d : Threads ι} {i : ι}
  {cmd : Cmd} {k : Except Exc cmd.Val → WorkM Reply}

/-- Every request makes its moves, and those that only read have nothing to write. -/
structure ReadsClean (env : Env) (requests : ι → UUID × Request) (c : Threads ι) : Prop where
  moves : ∃ φ, AllObey (machine env) (fun i => OwnMove (requests i).1 (requests i).2)
    (fun _ => OwnFinal) φ c
  reads : ∀ i, (requests i).2.readOnly → (c.threads i).prog.Only (Cmd.reads ·) ∧
    (c.threads i).locals.written = [] ∧ (c.threads i).locals.dirty = []

theorem ReadsClean.issue (h : ReadsClean env requests c) (hp : (c.threads i).prog = .call cmd k) :
    ReadsClean env requests (c.issue (machine env) i cmd k) := by
  obtain ⟨φ, hobey⟩ := h.moves
  obtain ⟨φ', -, hobey'⟩ := hobey.issue hp
  refine ⟨⟨_, hobey'⟩, fun j hj => ?_⟩
  by_cases hji : j = i
  · subst hji
    obtain ⟨honly, hwritten, hdirty⟩ := h.reads j hj
    rw [hp] at honly
    rw [Config.threads_issue_self]
    exact ⟨honly.2 _, (clean_of_reads (w := c.world) honly.1 hwritten hdirty).1⟩
  · rw [Config.threads_issue_of_ne hji]
    exact h.reads j hj

theorem ReadsClean.step (h : ReadsClean env requests c) (a : Act ι Nat) :
    ReadsClean env requests (c.step (machine env) a) := by
  cases a with
  | drift n => exact ⟨h.moves, h.reads⟩
  | step i =>
    cases hp : (c.threads i).prog with
    | done o =>
      rw [Config.step_of_done hp]
      exact h
    | call cmd k =>
      rw [Config.step_of_call hp]
      exact h.issue hp

/-- A statement changes the tables only if it is a commit that succeeds, of a request
that does not only read. -/
theorem ReadsClean.world_issue (h : ReadsClean env requests c)
    (hp : (c.threads i).prog = .call cmd k)
    (hquiet : (requests i).2.readOnly ∨
      ∀ reply, (c.issue (machine env) i cmd k).outcome i ≠ some (.ok reply)) :
    (c.issue (machine env) i cmd k).world = c.world := by
  obtain hread | hfail := hquiet
  · obtain ⟨honly, hwritten, hdirty⟩ := h.reads i hread
    rw [hp] at honly
    exact (clean_of_reads honly.1 hwritten hdirty).2
  · obtain ⟨φ, hobey⟩ := h.moves
    exact world_of_unsuccessful hobey hp hfail

/-- Requests that only read, or that do not succeed, go unnoticed: with their statements
left out of any order of the statements, the tables and all other responses are the same. -/
theorem unsuccessful_unnoticed (env : Env) (w : World) (requests : ι → UUID × Request)
    (hidden : ι → Prop) [DecidablePred hidden] (schedule : List (Act ι Nat))
    (hhidden : ∀ i, hidden i → (requests i).2.readOnly ∨
      ∀ reply, ((beside w requests).run (machine env) schedule).outcome i ≠ some (.ok reply)) :
    let full := (beside w requests).run (machine env) schedule
    let without := (beside w requests).run (machine env) (purge (fun i => ¬ hidden i) schedule)
    full.world = without.world ∧ ∀ i, ¬ hidden i → full.outcome i = without.outcome i := by
  intro full without
  have hstart : ReadsClean env requests (beside w requests) :=
    ⟨⟨fun _ => .start, own_obeys env w requests⟩,
      fun i hi => ⟨reads_of_readOnly hi, rfl, rfl⟩⟩
  have hunwinding : Unwinding (machine env) (fun i => ¬ hidden i) (fun v w => v = w)
      (ReadsClean env requests)
      (fun c a => ∀ i r, (c.step (machine env) a).outcome i = some r → full.outcome i = some r) := by
    refine ⟨fun c a hc => hc.step a, fun v w n h => h ▸ rfl, ?_, ?_⟩
    · intro c i cmd k v hc hi hp hfinal hv
      refine (hc.world_issue hp ?_).trans hv
      refine (hhidden i (not_not.mp hi)).imp_right fun hfail reply hreply => ?_
      refine hfail reply (hfinal i _ ?_)
      rwa [Config.step_of_call hp]
    · intro c d i cmd k _ _ _ _ _ hworld
      rw [hworld]
      exact .refl (fun _ => rfl) _
  have halike : Aligned (fun i => ¬ hidden i) (fun v w => v = w) full without :=
    hunwinding.run_purge hstart hstart ⟨fun _ _ => rfl, rfl⟩ (Config.along_outcome schedule)
  refine ⟨halike.world, fun i hi => ?_⟩
  rw [Config.outcome, Config.outcome, halike.threads i hi]

end Traces

/-- The delete of Bob fails. -/
theorem unsuccessful_unnoticed_bobBesideAda :
    let full := (beside oneProject bobBesideAda).run (machine plainEnv) turnsOfBoth
    let without := (beside oneProject bobBesideAda).run (machine plainEnv)
      (purge (fun i => ¬ i = 1) turnsOfBoth)
    full.world = without.world ∧ ∀ i, ¬ i = 1 → full.outcome i = without.outcome i := by
  refine unsuccessful_unnoticed plainEnv oneProject bobBesideAda (· = 1) turnsOfBoth ?_
  rintro i rfl
  have hfails : ((beside oneProject bobBesideAda).run (machine plainEnv) turnsOfBoth).outcome 1 =
      some (.error (.projectNotFoundError "Project not found.")) := by decide +kernel
  exact .inr fun reply h => by cases hfails.symm.trans h

end TaskMgtApp.Work
