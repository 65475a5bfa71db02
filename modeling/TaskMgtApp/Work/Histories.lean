import TaskMgtApp.Work.Confinement

/-!
# What becomes of a row

Nothing takes a row out of a table, renames it, gives it away or moves it, and no
deleted row comes back. A row that was not there before is the row of one create that
has succeeded, and every such create has its row. This holds in every order of the
statements of any requests.
-/
namespace TaskMgtApp.Work

open TaskMgtApp.Common
open TaskMgtApp.Lib.Program TaskMgtApp.Lib.Interleaving TaskMgtApp.Lib.Rows

/-! ## Tables that only grow -/

/-- A later version of the same project. -/
structure Project.Continues (p p' : Project) : Prop where
  id : p'.id = p.id
  ownerId : p'.ownerId = p.ownerId
  createdAt : p'.createdAt = p.createdAt
  deleted : p.deletedAt ≠ none → p'.deletedAt ≠ none

/-- A later version of the same task. -/
structure Task.Continues (t t' : Task) : Prop where
  id : t'.id = t.id
  projectId : t'.projectId = t.projectId
  createdAt : t'.createdAt = t.createdAt
  deleted : t.deletedAt ≠ none → t'.deletedAt ≠ none

/-- The rows of `w` live on in `w'`, in their order; new ones are behind them. -/
structure World.Continues (w w' : World) : Prop where
  projects : Extends Project.Continues w.projects w'.projects
  tasks : Extends Task.Continues w.tasks w'.tasks

section Continues
variable {w w' w'' : World} {u : UUID} {r : Request} {x : Write}

theorem Project.Continues.refl (p : Project) : p.Continues p := ⟨rfl, rfl, rfl, fun h => h⟩

theorem Task.Continues.refl (t : Task) : t.Continues t := ⟨rfl, rfl, rfl, fun h => h⟩

theorem Project.Continues.trans (p p' p'' : Project) (h : p.Continues p') (h' : p'.Continues p'') :
    p.Continues p'' :=
  ⟨h'.id.trans h.id, h'.ownerId.trans h.ownerId, h'.createdAt.trans h.createdAt,
    fun hd => h'.deleted (h.deleted hd)⟩

theorem Task.Continues.trans (t t' t'' : Task) (h : t.Continues t') (h' : t'.Continues t'') :
    t.Continues t'' :=
  ⟨h'.id.trans h.id, h'.projectId.trans h.projectId, h'.createdAt.trans h.createdAt,
    fun hd => h'.deleted (h.deleted hd)⟩

theorem World.Continues.refl (w : World) : w.Continues w :=
  ⟨.refl Project.Continues.refl, .refl Task.Continues.refl⟩

theorem World.Continues.trans (h : w.Continues w') (h' : w'.Continues w'') : w.Continues w'' :=
  ⟨h.projects.trans Project.Continues.trans h'.projects,
    h.tasks.trans Task.Continues.trans h'.tasks⟩

@[simp] theorem Project.setattrs_createdAt (p : Project) (fields : List ProjectAttr) :
    (p.setattrs fields).createdAt = p.createdAt := by
  induction fields generalizing p with
  | nil => rfl
  | cons a as ih =>
    refine (ih (p.setattr a)).trans ?_
    cases a <;> rfl

@[simp] theorem Task.setattrs_createdAt (t : Task) (fields : List TaskAttr) :
    (t.setattrs fields).createdAt = t.createdAt := by
  induction fields generalizing t with
  | nil => rfl
  | cons a as ih =>
    refine (ih (t.setattr a)).trans ?_
    cases a <;> rfl

theorem Project.continues_setattrs (p : Project) {fields : List ProjectAttr}
    (h : ∀ a ∈ fields, a.keeps) (n : Nat) :
    p.Continues { p.setattrs fields with updatedAt := n } := by
  obtain ⟨howner, hdeleted⟩ := p.setattrs_keep h
  exact ⟨p.setattrs_id fields, howner, p.setattrs_createdAt fields, fun hd hd' => hd (hdeleted hd')⟩

theorem Task.continues_setattrs (t : Task) {fields : List TaskAttr}
    (h : ∀ a ∈ fields, a.keeps) (n : Nat) :
    t.Continues { t.setattrs fields with updatedAt := n } := by
  obtain ⟨hparent, hdeleted⟩ := t.setattrs_keep h
  exact ⟨t.setattrs_id fields, hparent, t.setattrs_createdAt fields, fun hd hd' => hd (hdeleted hd')⟩

theorem Write.Own.continues (h : x.Own w u r) : w.Continues (w.write x) := by
  cases x with
  | insertProject row =>
    exact ⟨.append Project.Continues.refl [row], .refl Task.Continues.refl⟩
  | insertTask row => exact ⟨.refl Project.Continues.refl, .append Task.Continues.refl [row]⟩
  | updateProject projectId fields n =>
    refine ⟨.map fun p _ => ?_, .refl Task.Continues.refl⟩
    split
    · exact p.continues_setattrs (fun a ha => (h.2 a ha).2) n
    · exact .refl p
  | updateTasks ids fields n =>
    refine ⟨.refl Project.Continues.refl, .map fun t _ => ?_⟩
    split
    · exact t.continues_setattrs (fun a ha => (h.2 a ha).2) n
    · exact .refl t

end Continues

/-! ## Every order of the statements -/

/-- A row that was not there at the start is one that a request has drawn the id for. -/
structure Provenance {ι : Type} (start : World) (requests : ι → UUID × Request) (w : World) : Prop where
  projects : ∀ p ∈ w.projects, (∃ p₀ ∈ start.projects, p₀.id = p.id) ∨
    ∃ i, (requests i).1 = p.ownerId ∧ (requests i).2.projectDraw = some p.id
  tasks : ∀ t ∈ w.tasks, (∃ t₀ ∈ start.tasks, t₀.id = t.id) ∨
    ∃ i, w.owns (requests i).1 t.projectId ∧ (requests i).2.taskDraw = some t.id

section Runs
variable {ι : Type} {env : Env} {start : World} {requests : ι → UUID × Request}

theorem Provenance.effect {w w' : World} {i : ι} (h : Provenance start requests w)
    (heffect : Effect w (requests i).1 (requests i).2 w') : Provenance start requests w' := by
  have hgrows := heffect.grows
  cases heffect with
  | insertProject row haccepts howner hdraw =>
    constructor
    · intro p hp
      rcases List.mem_append.mp hp with hp | hp
      · exact h.projects p hp
      · obtain rfl := List.mem_singleton.mp hp
        exact .inr ⟨i, howner.symm, hdraw⟩
    · intro t ht
      exact (h.tasks t ht).imp_right fun ⟨k, howns, hdraw⟩ => ⟨k, hgrows.owns howns, hdraw⟩
  | insertTask row haccepts howner hdraw =>
    refine ⟨h.projects, fun t ht => ?_⟩
    rcases List.mem_append.mp ht with ht | ht
    · exact h.tasks t ht
    · obtain rfl := List.mem_singleton.mp ht
      exact .inr ⟨i, howner, hdraw⟩
  | update g k hg hk =>
    constructor
    · intro p' hp'
      obtain ⟨p, hp, rfl⟩ := List.mem_map.mp hp'
      rw [(hg p hp).id, (hg p hp).owner]
      exact h.projects p hp
    · intro t' ht'
      obtain ⟨t, ht, rfl⟩ := List.mem_map.mp ht'
      rw [(hk t ht).id, (hk t ht).parent]
      exact (h.tasks t ht).imp_right fun ⟨j, howns, hdraw⟩ => ⟨j, hgrows.owns howns, hdraw⟩

variable [DecidableEq ι]

/-- The constraints of the tables, every foreign key, primary key, type and NOT NULL, hold in
every state of every order of the statements. -/
theorem constraints_hold (env : Env) (w : World) (hvalid : w.Valid) (requests : ι → UUID × Request)
    (hfresh : FreshRequests w requests) (schedule : List (Act ι Nat)) :
    ((beside w requests).run (machine env) schedule).world.Valid := by
  obtain ⟨φ, -, hsound⟩ := (OwnInv.start env hvalid hfresh).run hfresh.apart schedule
  exact hsound.valid

/-- The create looks its project up, and inserts its row after the delete has committed. -/
theorem constraints_hold_createBesideDelete :
    ((beside oneProject createBesideDelete).run (machine plainEnv)
      ([.step 0] ++ List.replicate 6 (.step 1) ++ List.replicate 3 (.step 0))).world.Valid :=
  constraints_hold plainEnv oneProject oneProject_valid createBesideDelete createBesideDelete_fresh _

theorem OwnInv.continues_step {c : Threads ι} (h : OwnInv env requests c) (a : Act ι Nat) :
    c.world.Continues (c.step (machine env) a).world := by
  obtain ⟨φ, hobey, hsound⟩ := h
  cases a with
  | drift n => exact ⟨.refl Project.Continues.refl, .refl Task.Continues.refl⟩
  | step i =>
    cases hp : (c.threads i).prog with
    | done o =>
      rw [Config.step_of_done hp]
      exact .refl _
    | call cmd k =>
      obtain ⟨φ', hm, -⟩ := hobey.issue hp
      rw [Config.step_of_call hp]
      exact hsound.issue_induction (P := fun v => c.world.Continues v) hm
        (fun v x _ hx _ hv => hv.trans hx.continues) (.refl _)

theorem OwnInv.continues (hapart : ∀ i k, i ≠ k → (requests i).2.Apart (requests k).2)
    {c : Threads ι} (h : OwnInv env requests c) (schedule : List (Act ι Nat)) :
    c.world.Continues (c.run (machine env) schedule).world := by
  induction schedule generalizing c with
  | nil => exact .refl _
  | cons a as ih => exact (h.continues_step a).trans (ih (h.run hapart [a]))

/-- From every state of every order of the statements on, the rows live on: none is taken
out, renamed, given to another owner or project, or brought back from its deletion. -/
theorem rows_live_on (env : Env) (w : World) (hvalid : w.Valid) (requests : ι → UUID × Request)
    (hfresh : FreshRequests w requests) (pre post : List (Act ι Nat)) :
    ((beside w requests).run (machine env) pre).world.Continues
      ((beside w requests).run (machine env) (pre ++ post)).world := by
  rw [Config.run_append]
  exact ((OwnInv.start env hvalid hfresh).run hfresh.apart pre).continues hfresh.apart post

theorem rows_live_on_createBesideDelete :
    ((beside oneProject createBesideDelete).run (machine plainEnv) [.step 0, .step 0]).world.Continues
      ((beside oneProject createBesideDelete).run (machine plainEnv)
        ([.step 0, .step 0] ++ (List.replicate 6 (.step 1) ++ List.replicate 2 (.step 0)))).world :=
  rows_live_on plainEnv oneProject oneProject_valid createBesideDelete createBesideDelete_fresh _ _

theorem OwnInv.provenance (hapart : ∀ i k, i ≠ k → (requests i).2.Apart (requests k).2)
    {c : Threads ι} (hc : OwnInv env requests c) (h : Provenance start requests c.world)
    (schedule : List (Act ι Nat)) :
    Provenance start requests (c.run (machine env) schedule).world := by
  induction schedule generalizing c with
  | nil => exact h
  | cons a as ih =>
    refine ih (hc.run hapart [a]) ?_
    obtain ⟨φ, hobey, hsound⟩ := hc
    cases a with
    | drift n => exact ⟨h.projects, h.tasks⟩
    | step i =>
      cases hp : (c.threads i).prog with
      | done o =>
        rw [Config.step_of_done hp]
        exact h
      | call cmd k =>
        obtain ⟨φ', hm, -⟩ := hobey.issue hp
        rw [Config.step_of_call hp]
        exact hsound.issue_induction hm (fun v x _ _ heffect hv => hv.effect heffect) h

/-- In every state of every order of the statements, a create has its row if and only if it
has succeeded, and all other rows were there at the start. -/
theorem rows_of_creates (env : Env) (w : World) (hvalid : w.Valid) (requests : ι → UUID × Request)
    (hfresh : FreshRequests w requests) (schedule : List (Act ι Nat)) :
    let c := (beside w requests).run (machine env) schedule
    (∀ i id, (requests i).2.projectDraw = some id →
      (c.world.owns (requests i).1 id ↔ ∃ reply, c.outcome i = some (.ok reply))) ∧
    (∀ i id, (requests i).2.taskDraw = some id →
      (c.world.ownsTask (requests i).1 id ↔ ∃ reply, c.outcome i = some (.ok reply))) ∧
    (∀ p ∈ c.world.projects, (∃ p₀ ∈ w.projects, p₀.id = p.id) ∨
      ∃ i reply, (requests i).1 = p.ownerId ∧ (requests i).2.projectDraw = some p.id ∧
        c.outcome i = some (.ok reply)) ∧
    ∀ t ∈ c.world.tasks, (∃ t₀ ∈ w.tasks, t₀.id = t.id) ∨
      ∃ i reply, c.world.owns (requests i).1 t.projectId ∧ (requests i).2.taskDraw = some t.id ∧
        c.outcome i = some (.ok reply) := by
  intro c
  have hstart := OwnInv.start env hvalid hfresh
  have hprovenance : Provenance w requests c.world := hstart.provenance hfresh.apart
    ⟨fun p hp => .inl ⟨p, hp, rfl⟩, fun t ht => .inl ⟨t, ht, rfl⟩⟩ schedule
  obtain ⟨φ, hobey, hsound⟩ := hstart.run hfresh.apart schedule
  have hproject : ∀ i id, (requests i).2.projectDraw = some id →
      ∀ p ∈ c.world.projects, p.id = id → ∃ reply, c.outcome i = some (.ok reply) := by
    intro i id hdraw p hp hid
    rw [ok_iff_committed hobey]
    by_contra hφ
    exact ((hsound.sessions i).fresh hφ).project p hp (hdraw.trans (congrArg some hid.symm))
  have htask : ∀ i id, (requests i).2.taskDraw = some id →
      ∀ t ∈ c.world.tasks, t.id = id → ∃ reply, c.outcome i = some (.ok reply) := by
    intro i id hdraw t ht hid
    rw [ok_iff_committed hobey]
    by_contra hφ
    exact ((hsound.sessions i).fresh hφ).task t ht (hdraw.trans (congrArg some hid.symm))
  refine ⟨fun i id hdraw => ⟨fun howns => ?_, fun hok => ?_⟩,
    fun i id hdraw => ⟨fun howns => ?_, fun hok => ?_⟩, fun p hp => ?_, fun t ht => ?_⟩
  · obtain ⟨p, hp, hid, -⟩ := World.owns_iff.mp howns
    exact hproject i id hdraw p hp hid
  · have hφ := (ok_iff_committed hobey i).mp hok
    exact ((hsound.sessions i).stored hφ).project id hdraw
  · obtain ⟨t, ht, hid, -⟩ := World.ownsTask_iff.mp howns
    exact htask i id hdraw t ht hid
  · have hφ := (ok_iff_committed hobey i).mp hok
    exact ((hsound.sessions i).stored hφ).task id hdraw
  · refine (hprovenance.projects p hp).imp_right fun ⟨i, howner, hdraw⟩ => ?_
    obtain ⟨reply, hreply⟩ := hproject i p.id hdraw p hp rfl
    exact ⟨i, reply, howner, hdraw, hreply⟩
  · refine (hprovenance.tasks t ht).imp_right fun ⟨i, howns, hdraw⟩ => ?_
    obtain ⟨reply, hreply⟩ := htask i t.id hdraw t ht rfl
    exact ⟨i, reply, howns, hdraw, hreply⟩

end Runs

/-- The create has committed, so its row is there. -/
theorem rows_of_creates_createBesideDelete :
    ((beside oneProject createBesideDelete).run (machine plainEnv)
      ([.step 0] ++ List.replicate 6 (.step 1) ++ List.replicate 3 (.step 0))).world.ownsTask
        (createBesideDelete 0).1 (plainUuid .two .one) := by
  have hrows := rows_of_creates plainEnv oneProject oneProject_valid createBesideDelete
    createBesideDelete_fresh ([.step 0] ++ List.replicate 6 (.step 1) ++ List.replicate 3 (.step 0))
  have hreply : ((beside oneProject createBesideDelete).run (machine plainEnv)
      ([.step 0] ++ List.replicate 6 (.step 1) ++ List.replicate 3 (.step 0))).outcome 0 =
        some (.ok (.task ⟨plainUuid .two .one, plainUuid .one .zero, "Chapter two", none, .todo, .medium,
          none, 100, 100⟩)) := by decide +kernel
  exact (hrows.2.1 0 (plainUuid .two .one) rfl).mpr ⟨_, hreply⟩

end TaskMgtApp.Work
