import TaskMgtApp.Work.RowWrites

/-!
# Changes to different columns of one row

Requests that change different columns of a row, each from a copy of its own. A PATCH
sends the fields of its body that differ from its copy, a DELETE the new `deleted_at`,
and the cascade of a project stamps the row in place. In every order of the statements,
what the committed requests have written is in the row, and every other column is as it
was.
-/
namespace TaskMgtApp.Work

open TaskMgtApp.Common
open TaskMgtApp.Lib TaskMgtApp.Lib.Program TaskMgtApp.Lib.Program.Prog
open TaskMgtApp.Lib.Interleaving TaskMgtApp.Lib.Rows

/-! ## What a request writes to a row -/

/-- The assignments of the request to the row; `n` is the instant of a deletion. -/
def Request.writes (base : Row) (n : Nat) : Request → List Attr
  | .updateProject id payload =>
      if base.id = .project id then payload.modelDump.map .project else []
  | .updateTask id payload => if base.id = .task id then payload.modelDump.map .task else []
  | .deleteProject id =>
      if base.id = .project id then [.project (.deletedAt (some n))]
      else if base.parent = some id then [.task (.deletedAt (some n))]
      else []
  | .deleteTask id => if base.id = .task id then [.task (.deletedAt (some n))] else []
  | _ => []

/-- The columns of the row that the request changes. -/
def Request.columns (base : Row) (r : Request) : List String := (r.writes base 0).map Attr.column

/-- The command at whose instant the request deletes the row: the reading of the clock, or
for a task of the deleted project the first statement of the transaction. -/
def Request.stamps (base : Row) : Request → Cmd → Prop
  | .deleteProject id, .datetimeNow => base.id = .project id
  | .deleteProject id, .selectProject _ _ => base.parent = some id
  | .deleteTask id, .datetimeNow => base.id = .task id
  | _, _ => False

/-- The request `r` of thread `i` has written `fields`, as far as the log tells. -/
inductive Wrote {ι : Type} (base : Row) (r : Request) (log : List (Event Cmd.Val Exc World ι))
    (i : ι) : List Attr → Prop
  | patch (h : ∀ n, r.writes base n = r.writes base 0) : Wrote base r log i (r.writes base 0)
  | stamp {e : Event Cmd.Val Exc World ι} (he : e ∈ log) (hi : e.thread = i)
      (hstamps : r.stamps base e.command) : Wrote base r log i (r.writes base e.before.now)

section Writes
variable {base : Row} {r : Request}

theorem columns_writes (n : Nat) : (r.writes base n).map Attr.column = r.columns base := by
  unfold Request.columns
  cases r with
  | deleteProject id =>
    simp only [Request.writes]
    split
    · rfl
    · split <;> rfl
  | deleteTask id =>
    simp only [Request.writes]
    split <;> rfl
  | _ => rfl

theorem column_mem (n : Nat) {a : Attr} (ha : a ∈ r.writes base n) : a.column ∈ r.columns base :=
  columns_writes n ▸ List.mem_map_of_mem ha

theorem writes_eq_nil (h : r.columns base = []) (n : Nat) : r.writes base n = [] := by
  rwa [← columns_writes n, List.map_eq_nil_iff] at h

theorem writes_distinct (n : Nat) : Record.Distinct Attr.column (r.writes base n) := by
  have hone : ∀ a : Attr, Record.Distinct Attr.column [a] := fun a => List.pairwise_singleton _ a
  cases r with
  | updateProject id payload =>
    simp only [Request.writes]
    split
    · exact List.pairwise_map.mpr payload.modelDump_distinct
    · exact List.Pairwise.nil
  | updateTask id payload =>
    simp only [Request.writes]
    split
    · exact List.pairwise_map.mpr payload.modelDump_distinct
    · exact List.Pairwise.nil
  | deleteProject id =>
    simp only [Request.writes]
    split
    · exact hone _
    · split
      · exact hone _
      · exact List.Pairwise.nil
  | deleteTask id =>
    simp only [Request.writes]
    split
    · exact hone _
    · exact List.Pairwise.nil
  | _ => exact List.Pairwise.nil

/-- No request moves a task to another project. -/
theorem projectId_not_mem : "project_id" ∉ r.columns base := by
  intro h
  obtain ⟨a, ha, hcolumn⟩ := List.mem_map.mp h
  cases r with
  | updateProject id payload =>
    simp only [Request.writes] at ha
    split at ha
    · obtain ⟨b, hb, rfl⟩ := List.mem_map.mp ha
      cases b <;> simp [Attr.column, ProjectAttr.column] at hcolumn
    · cases ha
  | updateTask id payload =>
    simp only [Request.writes] at ha
    split at ha
    · obtain ⟨b, hb, rfl⟩ := List.mem_map.mp ha
      have hup := payload.modelDump_updatable b hb
      cases b with
      | projectId v => cases hup
      | _ => simp [Attr.column, TaskAttr.column] at hcolumn
    · cases ha
  | deleteProject id =>
    simp only [Request.writes] at ha
    split at ha
    · obtain rfl := List.mem_singleton.mp ha
      simp [Attr.column, ProjectAttr.column] at hcolumn
    · split at ha
      · obtain rfl := List.mem_singleton.mp ha
        simp [Attr.column, TaskAttr.column] at hcolumn
      · cases ha
  | deleteTask id =>
    simp only [Request.writes] at ha
    split at ha
    · obtain rfl := List.mem_singleton.mp ha
      simp [Attr.column, TaskAttr.column] at hcolumn
    · cases ha
  | _ => cases ha

theorem Wrote.mem_columns {ι : Type} {log : List (Event Cmd.Val Exc World ι)} {i : ι}
    {fields : List Attr} (h : Wrote base r log i fields) :
    ∀ a ∈ fields, a.column ∈ r.columns base := by
  cases h <;> exact fun a ha => column_mem _ ha

theorem Wrote.mono {ι : Type} {log log' : List (Event Cmd.Val Exc World ι)} {i : ι}
    {fields : List Attr} (h : Wrote base r log i fields) (hlog : log ⊆ log') :
    Wrote base r log' i fields := by
  cases h with
  | patch h => exact .patch h
  | stamp he hi hstamps => exact .stamp (hlog he) hi hstamps

end Writes

/-! ## The moves of a request -/

/-- How far a request has come with the row. -/
inductive MergePhase where
  | start
  /-- Nothing is in store for the row. -/
  | away
  /-- The deletion of the row's project, its transaction open since `n`. -/
  | opened (n : Nat)
  /-- The request has loaded a copy of the row. -/
  | found (copy : Row)
  /-- It has read the clock to delete the row. -/
  | clocked (copy : Row) (n : Nat)
  /-- It has assigned `fields`, of which it will send `sent`. -/
  | holding (fields sent : List Attr)
  | committed (fields : List Attr)

namespace MergePhase

def sent : MergePhase → List Attr
  | holding _ sent => sent
  | _ => []

def done : MergePhase → List Attr
  | committed fields => fields
  | _ => []

def copy : MergePhase → Option Row
  | found copy | clocked copy _ => some copy
  | _ => none

def instant : MergePhase → Option Nat
  | opened n | clocked _ n => some n
  | _ => none

/-- All that the request has assigned. -/
def fields : MergePhase → Option (List Attr)
  | holding fields _ | committed fields => some fields
  | _ => none

/-- Not committed. -/
def running : MergePhase → Prop
  | committed _ => False
  | _ => True

/-- Running, past the first statement. -/
def underway : MergePhase → Prop
  | start | committed _ => False
  | _ => True

/-- A phase in which the body of the request may end well, with what the commit brings. -/
def commits (base : Row) (r : Request) (fields : List Attr) : MergePhase → Prop
  | holding fields' _ => fields = fields'
  | start | away => fields = [] ∧ r.columns base = []
  | _ => False

end MergePhase

/-- A command that leaves the row alone. -/
def Cmd.spares (base : Row) : Cmd → Prop
  | .assignProject loaded _ => base.id ≠ .project loaded.id
  | .assignTask loaded _ => base.id ≠ .task loaded.id
  | .softDeleteByProject projectId => base.parent ≠ some projectId
  | .commit | .rollback => False
  | _ => True

inductive MergeMove (base : Row) (u : UUID) (r : Request) :
    MergePhase → Cmd → State → MergePhase → Prop
  | leave {c : Cmd} {s : State} (hc : c.spares base) : MergeMove base u r .start c s .away
  | quiet {φ : MergePhase} {c : Cmd} {s : State} (hφ : φ.underway) (hc : c.spares base) :
      MergeMove base u r φ c s φ
  | opens {id : UUID} {s : State} (hr : r = .deleteProject id) (hbase : base.parent = some id) :
      MergeMove base u r .start (.selectProject id u) s (.opened s.2.now)
  | find {c : Cmd} {copy : Row} {l : Session} {w : World} (hc : c = base.id.select u)
      (hid : copy.id = base.id) (hcopy : copy ∈ (l.after w).rows) :
      MergeMove base u r .start c (l, w) (.found copy)
  | clock {copy : Row} {s : State} (hr : r.stamps base .datetimeNow) :
      MergeMove base u r (.found copy) .datetimeNow s (.clocked copy s.2.now)
  | patch {x : Dirty} {s : State} (hr : ∀ n, r.writes base n = x.fields) :
      MergeMove base u r (.found x.row) x.assign s (.holding x.fields x.changed)
  | mark {x : Dirty} {n : Nat} {s : State} (hr : r.writes base n = x.fields) :
      MergeMove base u r (.clocked x.row n) x.assign s (.holding x.fields x.changed)
  | cascade {id : UUID} {n : Nat} {s : State} (hr : r = .deleteProject id)
      (hbase : base.parent = some id) :
      MergeMove base u r (.opened n) (.softDeleteByProject id) s
        (.holding [.task (.deletedAt (some n))] [.task (.deletedAt (some n))])
  | commit {φ : MergePhase} {fields : List Attr} {l l' : Session} {w : World}
      (hφ : φ.commits base r fields) (hl : l.flush w = some l') :
      MergeMove base u r φ .commit (l, w) (.committed fields)
  | refused {φ : MergePhase} {l : Session} {w : World} (hφ : φ.running)
      (hl : l.flush w = none) : MergeMove base u r φ .commit (l, w) φ
  | rollback {φ : MergePhase} {s : State} (hφ : φ.running) :
      MergeMove base u r φ .rollback s .away

/-- A request ends well with its commit, and otherwise with nothing in store. -/
def MergeFinal {α : Type} : MergePhase → Except Exc α → Prop
  | φ, .ok _ => ∃ fields, φ = .committed fields
  | φ, .error _ => φ = .away

/-- How the body of a request may end. -/
def BodyFinal {α : Type} (base : Row) (r : Request) : MergePhase → Except Exc α → Prop
  | φ, .ok _ => ∃ fields, φ.commits base r fields
  | φ, .error _ => φ.running

section Obeys
variable {env : Env} {base : Row} {u : UUID} {r : Request}

theorem MergePhase.running_of_commits {φ : MergePhase} {fields : List Attr}
    (h : φ.commits base r fields) : φ.running := by
  cases φ with
  | committed fields => cases h
  | _ => exact trivial

theorem merge_getDb {α : Type} {φ : MergePhase} {body : WorkM α}
    (hbody : Obeys (exec env) (MergeMove base u r) (BodyFinal base r) φ body) :
    Obeys (exec env) (MergeMove base u r) MergeFinal φ (getDb body) := by
  unfold getDb
  refine Obeys.catch (F := fun φ o => match o with
    | .ok _ => ∃ fields, φ = .committed fields
    | .error _ => φ.running) ?_ (fun φ a h => h) ?_
  · refine hbody.bind ?_ fun φ e h => h
    rintro φ a ⟨fields, hφ⟩ ⟨l, w⟩
    cases hl : l.flush w with
    | none =>
      refine ⟨φ, .refused (MergePhase.running_of_commits hφ) hl, ?_⟩
      simp only [exec, hl]
      exact MergePhase.running_of_commits hφ
    | some l' =>
      refine ⟨_, .commit hφ hl, ?_⟩
      simp only [exec, hl]
      exact ⟨fields, rfl⟩
  · intro φ e hφ s
    exact ⟨.away, .rollback hφ, rfl⟩

theorem merge_respond {φ : MergePhase} (h : ∃ fields, φ.commits base r fields)
    (reply : Option Reply) :
    Obeys (exec env) (MergeMove base u r) (BodyFinal base r) φ (respond reply) := by
  cases reply with
  | none =>
    obtain ⟨fields, h⟩ := h
    exact MergePhase.running_of_commits h
  | some reply => exact h

/-- A body that leaves the row alone. -/
theorem merge_spares {α : Type} {φ : MergePhase} {p : WorkM α} (hφ : φ = .start ∨ φ = .away)
    (hr : r.columns base = []) (hp : p.Only (Cmd.spares base)) :
    Obeys (exec env) (MergeMove base u r) (BodyFinal base r) φ p := by
  induction p generalizing φ with
  | done o =>
    cases o with
    | ok a => rcases hφ with rfl | rfl <;> exact ⟨[], rfl, hr⟩
    | error e => rcases hφ with rfl | rfl <;> exact trivial
  | call c k ih =>
    intro s
    refine ⟨.away, ?_, ih _ (.inr rfl) (hp.2 _)⟩
    rcases hφ with rfl | rfl
    · exact .leave hp.1
    · exact .quiet trivial hp.1

theorem spares_respond (reply : Option Reply) : (respond reply).Only (Cmd.spares base) := by
  cases reply <;> exact trivial

theorem parent_of_project {id : UUID} (h : base.id = .project id) : base.parent = none := by
  cases base with
  | task t => cases h
  | project p => rfl

/-- Where a request stands when it has loaded `row`. -/
inductive HasLoaded (base row : Row) : MergePhase → Prop
  | found (hid : base.id = row.id) : HasLoaded base row (.found row)
  | away (hid : base.id ≠ row.id) : HasLoaded base row .away

/-- A request starts by loading a row that it sees. -/
theorem exists_loaded {l : Session} {w : World} {row : Row} (hrow : row ∈ (l.after w).rows) :
    ∃ φ, MergeMove base u r .start (row.id.select u) (l, w) φ ∧ HasLoaded base row φ := by
  by_cases hid : base.id = row.id
  · exact ⟨.found row, .find (by rw [hid]) hid.symm hrow, .found hid⟩
  · refine ⟨.away, .leave ?_, .away hid⟩
    cases row <;> exact trivial

theorem spares_assign {x : Dirty} (hid : base.id ≠ x.row.id) : x.assign.spares base := by
  cases x <;> exact hid

/-- The rest of a PATCH, once it has loaded the row. -/
theorem merge_patch (x : Dirty) {φ : MergePhase} (hφ : HasLoaded base x.row φ)
    (hr : ∀ n, r.writes base n = if base.id = x.row.id then x.fields else []) (reply : Option Reply) :
    Obeys (exec env) (MergeMove base u r) (BodyFinal base r) φ
      (do
        let _ ← execute x.assign
        respond reply) := by
  have hreply : ∀ {φ' : MergePhase} {s : State}, (∃ fields, φ'.commits base r fields) →
      Obeys (exec env) (MergeMove base u r) (BodyFinal base r) φ'
        (Prog.done (exec env x.assign s).1 >>= fun _ => respond reply) := by
    intro φ' s h
    cases x <;> exact merge_respond h reply
  cases hφ with
  | found hid =>
    intro s
    exact ⟨_, .patch fun n => by rw [hr n, if_pos hid], hreply ⟨x.fields, rfl⟩⟩
  | away hid =>
    intro s
    refine ⟨.away, .quiet trivial (spares_assign hid), hreply ⟨[], rfl, ?_⟩⟩
    rw [Request.columns, hr 0, if_neg hid, List.map_nil]

/-- The last flush of a deletion. -/
theorem merge_flush {φ : MergePhase} {fields : List Attr} (hφ : φ.underway)
    (h : φ.commits base r fields) :
    Obeys (exec env) (MergeMove base u r) (BodyFinal base r) φ
      (do
        let _ ← execute .flush
        return .noContent : WorkM Reply) := by
  intro s
  refine ⟨φ, .quiet hφ trivial, ?_⟩
  cases (exec env .flush s).1 with
  | error e => exact MergePhase.running_of_commits h
  | ok _ => exact ⟨fields, h⟩

/-- The rest of a DELETE that has loaded the row. -/
theorem merge_mark (x : Nat → Dirty) {row : Row} (hx : ∀ n, (x n).row = row)
    (hstamps : r.stamps base .datetimeNow) (hr : ∀ n, r.writes base n = (x n).fields) :
    Obeys (exec env) (MergeMove base u r) (BodyFinal base r) (.found row)
      (do
        let now ← execute .datetimeNow
        let _ ← execute (x now).assign
        let _ ← execute .flush
        return .noContent : WorkM Reply) := by
  rintro ⟨l, w⟩
  refine ⟨.clocked row w.now, .clock hstamps, fun s => ?_⟩
  rw [← hx w.now]
  refine ⟨_, .mark (hr w.now), ?_⟩
  cases x w.now <;> exact merge_flush trivial rfl

/-- The rest of a DELETE that has loaded another row. -/
theorem merge_markOther (x : Nat → Dirty) {φ : MergePhase} {fields : List Attr} (hφ : φ.underway)
    (h : φ.commits base r fields) (hx : ∀ n, base.id ≠ (x n).row.id) :
    Obeys (exec env) (MergeMove base u r) (BodyFinal base r) φ
      (do
        let now ← execute .datetimeNow
        let _ ← execute (x now).assign
        let _ ← execute .flush
        return .noContent : WorkM Reply) := by
  rintro ⟨l, w⟩
  refine ⟨φ, .quiet hφ trivial, fun s => ?_⟩
  refine ⟨φ, .quiet hφ (spares_assign (hx w.now)), ?_⟩
  cases x w.now <;> exact merge_flush hφ h

theorem merge_updateProject (id : UUID) (payload : ProjectUpdate) :
    Obeys (exec env) (MergeMove base u (.updateProject id payload))
      (BodyFinal base (.updateProject id payload)) .start
      ((Request.updateProject id payload).endpoint u) := by
  simp only [Request.endpoint, ProjectService.update, ProjectService.get,
    ProjectRepository.getByIdForOwner, perform_bind, call_bind, obeys_call]
  rintro ⟨l, w⟩
  cases hp : (ownedProjects (l.projects w) u).find? fun p => p.id == id with
  | none =>
    refine ⟨.away, .leave trivial, ?_⟩
    simp only [exec, hp]
    exact trivial
  | some p =>
    obtain rfl : p.id = id := by simpa using List.find?_some hp
    obtain ⟨hmem, -⟩ := mem_ownedProjects.mp (List.mem_of_find?_eq_some hp)
    obtain ⟨φ, hm, hφ⟩ := exists_loaded (mem_rows_project.mpr hmem)
    refine ⟨φ, hm, ?_⟩
    simp only [exec, hp, pure_eq, done_ok_bind]
    exact merge_patch (.project p payload.modelDump) hφ (fun n => rfl) _

theorem merge_updateTask (id : UUID) (payload : TaskUpdate) :
    Obeys (exec env) (MergeMove base u (.updateTask id payload))
      (BodyFinal base (.updateTask id payload)) .start
      ((Request.updateTask id payload).endpoint u) := by
  simp only [Request.endpoint, TaskService.update, TaskService.get,
    TaskRepository.getByIdForOwner, perform_bind, call_bind, obeys_call]
  rintro ⟨l, w⟩
  cases ht : (ownedTasks (l.projects w) (l.tasks w) u).find? fun t => t.id == id with
  | none =>
    refine ⟨.away, .leave trivial, ?_⟩
    simp only [exec, ht]
    exact trivial
  | some t =>
    obtain rfl : t.id = id := by simpa using List.find?_some ht
    obtain ⟨hmem, -⟩ := mem_ownedTasks.mp (List.mem_of_find?_eq_some ht)
    obtain ⟨φ, hm, hφ⟩ := exists_loaded (mem_rows_task.mpr hmem)
    refine ⟨φ, hm, ?_⟩
    simp only [exec, ht, pure_eq, done_ok_bind]
    exact merge_patch (.task t payload.modelDump) hφ (fun n => rfl) _

theorem merge_deleteTask (id : UUID) :
    Obeys (exec env) (MergeMove base u (.deleteTask id)) (BodyFinal base (.deleteTask id)) .start
      ((Request.deleteTask id).endpoint u) := by
  simp only [Request.endpoint, TaskService.delete, TaskService.get,
    TaskRepository.getByIdForOwner, perform_bind, call_bind, obeys_call]
  rintro ⟨l, w⟩
  cases ht : (ownedTasks (l.projects w) (l.tasks w) u).find? fun t => t.id == id with
  | none =>
    refine ⟨.away, .leave trivial, ?_⟩
    simp only [exec, ht]
    exact trivial
  | some t =>
    obtain rfl : t.id = id := by simpa using List.find?_some ht
    obtain ⟨hmem, -⟩ := mem_ownedTasks.mp (List.mem_of_find?_eq_some ht)
    obtain ⟨φ, hm, hφ⟩ := exists_loaded (mem_rows_task.mpr hmem)
    refine ⟨φ, hm, ?_⟩
    simp only [exec, ht, pure_eq, done_ok_bind]
    cases hφ with
    | found hid =>
      refine merge_mark (fun n => .task t [.deletedAt (some n)]) (fun n => rfl) hid fun n => ?_
      simp only [Request.writes, if_pos (show base.id = .task t.id from hid)]
      rfl
    | away hid =>
      refine merge_markOther (fun n => .task t [.deletedAt (some n)]) trivial
        (show MergePhase.commits base _ [] .away from ⟨rfl, ?_⟩) fun n => hid
      simp only [Request.columns, Request.writes, if_neg (show base.id ≠ .task t.id from hid)]
      rfl

theorem merge_deleteProject (id : UUID) :
    Obeys (exec env) (MergeMove base u (.deleteProject id)) (BodyFinal base (.deleteProject id))
      .start ((Request.deleteProject id).endpoint u) := by
  simp only [Request.endpoint, ProjectService.delete, ProjectService.get,
    ProjectRepository.getByIdForOwner, perform_bind, call_bind, obeys_call]
  rintro ⟨l, w⟩
  cases hp : (ownedProjects (l.projects w) u).find? fun p => p.id == id with
  | none =>
    refine ⟨.away, .leave trivial, ?_⟩
    simp only [exec, hp]
    exact trivial
  | some p =>
    obtain rfl : p.id = id := by simpa using List.find?_some hp
    obtain ⟨hmem, -⟩ := mem_ownedProjects.mp (List.mem_of_find?_eq_some hp)
    by_cases hparent : base.parent = some p.id
    · -- the row is a task of the project that is deleted
      have hid : base.id ≠ .project p.id := by
        intro hid
        rw [parent_of_project hid] at hparent
        cases hparent
      refine ⟨.opened w.now, .opens rfl hparent, ?_⟩
      simp only [exec, hp, pure_eq, done_ok_bind]
      refine fun s => ⟨_, .cascade rfl hparent, ?_⟩
      exact merge_markOther (fun n => .project p [.deletedAt (some n)]) trivial rfl fun n => hid
    · obtain ⟨φ, hm, hφ⟩ := exists_loaded (mem_rows_project.mpr hmem)
      refine ⟨φ, hm, ?_⟩
      simp only [exec, hp, pure_eq, done_ok_bind]
      cases hφ with
      | found hid =>
        refine fun s => ⟨_, .quiet trivial hparent, ?_⟩
        refine merge_mark (fun n => .project p [.deletedAt (some n)]) (fun n => rfl) hid fun n => ?_
        simp only [Request.writes, if_pos (show base.id = .project p.id from hid)]
        rfl
      | away hid =>
        refine fun s => ⟨.away, .quiet trivial hparent, ?_⟩
        refine merge_markOther (fun n => .project p [.deletedAt (some n)]) trivial
          (show MergePhase.commits base _ [] .away from ⟨rfl, ?_⟩) fun n => hid
        simp only [Request.columns, Request.writes, if_neg (show base.id ≠ .project p.id from hid),
          if_neg hparent]
        rfl

theorem merge_endpoint (r : Request) :
    Obeys (exec env) (MergeMove base u r) (BodyFinal base r) .start (r.endpoint u) := by
  cases r with
  | updateProject id payload => exact merge_updateProject id payload
  | updateTask id payload => exact merge_updateTask id payload
  | deleteProject id => exact merge_deleteProject id
  | deleteTask id => exact merge_deleteTask id
  | createProject payload uuid4 =>
    refine merge_spares (.inl rfl) rfl (Only.bind ?_ fun _ => spares_respond _)
    exact Only.bind (only_perform.mpr trivial) fun _ => only_perform.mpr trivial
  | listProjects pageParams ties =>
    refine merge_spares (.inl rfl) rfl (Only.bind ?_ fun _ => spares_respond _)
    exact Only.bind (only_perform.mpr trivial) fun _ =>
      Only.bind (only_perform.mpr trivial) fun _ => trivial
  | getProject projectId =>
    refine merge_spares (.inl rfl) rfl (Only.bind ?_ fun _ => spares_respond _)
    refine Only.bind (only_perform.mpr trivial) ?_
    rintro (_ | p) <;> exact trivial
  | createTask payload uuid4 =>
    refine merge_spares (.inl rfl) rfl (Only.bind ?_ fun _ => spares_respond _)
    refine Only.bind (only_perform.mpr trivial) ?_
    rintro (_ | p)
    · exact trivial
    · exact Only.bind (only_perform.mpr trivial) fun _ => only_perform.mpr trivial
  | listTasks pageParams filters ties =>
    refine merge_spares (.inl rfl) rfl (Only.bind ?_ fun _ => spares_respond _)
    exact Only.bind (only_perform.mpr trivial) fun _ =>
      Only.bind (only_perform.mpr trivial) fun _ => trivial
  | getTask taskId =>
    refine merge_spares (.inl rfl) rfl (Only.bind ?_ fun _ => spares_respond _)
    refine Only.bind (only_perform.mpr trivial) ?_
    rintro (_ | t) <;> exact trivial

theorem merges_obey {ι : Type} (env : Env) (base : Row) (w : World) (requests : ι → UUID × Request) :
    AllObey (machine env) (fun i => MergeMove base (requests i).1 (requests i).2)
      (fun _ => MergeFinal) (fun _ => .start) (beside w requests) :=
  fun i => merge_getDb (merge_endpoint (requests i).2)

end Obeys

/-! ## What a session knows and has in store -/

/-- The row is there, with the values in `done` and otherwise as in `base`. -/
structure RowOk {ι : Type} (base : Row) (done : ι → List Attr) (w : World) : Prop where
  present : ∃ row ∈ w.rows, row.id = base.id
  merged : ∀ row ∈ w.rows, row.id = base.id →
    Record.Merged Row.setattr Attr.column base done row ∧ row.createdAt = base.createdAt

/-- What holds of the session of the request `r` in phase `φ`. -/
structure MergeOk (base : Row) (r : Request) (φ : MergePhase) (l : Session) : Prop where
  pending : l.pending base.id = φ.sent
  inserts : ∀ x ∈ l.written, x.inserts ≠ some base.id
  unopened : φ = .start → l.began = none
  opened : ∀ n, φ = .opened n → l.began = some n
  /-- A copy has the columns of the request as in `base`. -/
  copy : ∀ row, φ.copy = some row → row.id = base.id ∧
    ∀ a : Attr, a.column ∈ r.columns base → (row.setattr a = row ↔ base.setattr a = base)
  sends : ∀ fields sent, φ = .holding fields sent →
    Record.Sends Row.setattr Attr.column base fields sent ∧
      ∀ a ∈ fields, a.column ∈ r.columns base

section Sessions
variable {ι : Type} {env : Env} {base : Row} {u : UUID} {r : Request} {φ φ' : MergePhase}
  {l l' : Session} {w : World} {c : Cmd} {done : ι → List Attr}

/-- A column that neither this request nor any committed one has written is as in `base`. -/
theorem MergeOk.view (h : MergeOk base r φ l) (hw : RowOk base done w) {row : Row}
    (hrow : row ∈ (l.after w).rows) (hid : row.id = base.id) {a : Attr}
    (hsent : ∀ b ∈ φ.sent, b.column ≠ a.column) (hdone : ∀ k, ∀ b ∈ done k, b.column ≠ a.column) :
    row.setattr a = row ↔ base.setattr a = base := by
  obtain ⟨m, hm, hmid, n, rfl⟩ := row_of_after hrow hid h.inserts
  have hfields : ∀ b ∈ l.sent base.id, b.column ≠ a.column := by
    intro b hb
    apply hsent b
    rw [← h.pending]
    exact List.mem_append_left _ hb
  calc _ ↔ ((l.sent base.id).foldl Row.setattr m).setattr a = (l.sent base.id).foldl Row.setattr m :=
        Row.alike_touch a
    _ ↔ m.setattr a = m := Record.set_foldl_iff Row.columns hfields
    _ ↔ base.setattr a = base := (hw.merged m hm hmid).1.kept a hdone

/-- A task stays in its project. -/
theorem MergeOk.parent (h : MergeOk base r φ l) (hw : RowOk base done w) {row : Row}
    (hrow : row ∈ (l.after w).rows) (hid : row.id = base.id)
    (hsent : ∀ b ∈ φ.sent, b.column ≠ "project_id")
    (hdone : ∀ k, ∀ b ∈ done k, b.column ≠ "project_id") : row.parent = base.parent := by
  cases base with
  | project p => exact parent_of_project hid
  | task b =>
    cases row with
    | project p => cases hid
    | task t =>
      have hview := (h.view hw hrow hid (a := .task (.projectId b.projectId)) hsent hdone).mpr rfl
      exact (congrArg Row.parent hview).symm

/-- The session `l'` has the same in store for the row as `l`, and does not insert it. -/
structure Spared (r : RowId) (l l' : Session) : Prop where
  pending : l'.pending r = l.pending r
  inserts : ∀ x ∈ l'.written, x.inserts ≠ some r
  began : ∀ n, l.began = some n → l'.began = some n

theorem MergeOk.spared (h : MergeOk base r φ l) : Spared base.id l l :=
  ⟨rfl, h.inserts, fun _ hn => hn⟩

theorem MergeOk.spared_begin (h : MergeOk base r φ l) (w : World) : Spared base.id l (l.begin w) where
  pending := rfl
  inserts := h.inserts
  began n hn := by simp [Session.begin, Session.clock, hn]

/-- A statement about other rows. -/
theorem MergeOk.spared_write (h : MergeOk base r φ l) (w : World) {x : Write}
    (htouches : x.touches base.id = false) (hinserts : x.inserts ≠ some base.id) :
    Spared base.id l ((l.begin w).write x) where
  pending := by
    rw [pending_write, htouches]
    exact congrArg (· ++ _) (List.append_nil _)
  inserts y hy := by
    rcases List.mem_append.mp hy with hy | hy
    · exact h.inserts y hy
    · exact List.mem_singleton.mp hy ▸ hinserts
  began := (h.spared_begin w).began

theorem MergeOk.spared_flush (h : MergeOk base r φ l) (hl : l.flush w = some l') :
    Spared base.id l l' := by
  have hrow : FlushedRow base.id l l' w := flush_row hl
  refine ⟨?_, fun x hx => ?_, fun n hn => ?_⟩
  · rw [Session.pending, hrow.sent, hrow.dirty]
    exact List.append_nil _
  · rcases hrow.inserts x hx with hx | hx
    · exact h.inserts x hx
    · simp [hx]
  · rw [hrow.began, Session.clock, hn, Option.getD_some]

/-- A command that leaves the row alone. -/
theorem MergeOk.spare (env : Env) (h : MergeOk base r φ l) (hw : RowOk base done w)
    (hc : c.spares base) (hsent : ∀ b ∈ φ.sent, b.column ≠ "project_id")
    (hdone : ∀ k, ∀ b ∈ done k, b.column ≠ "project_id") :
    Spared base.id l (exec env c (l, w)).2.1 := by
  have hassign : ∀ x : Dirty, x.row.id ≠ base.id →
      Spared base.id l { l with dirty := l.dirty ++ [x] } := by
    intro x hx
    refine ⟨?_, h.inserts, fun _ hn => hn⟩
    rw [pending_assign, if_neg fun ht => hx (touches_iff.mp ht), List.append_nil]
  obtain ⟨m, hm, hmid⟩ := hw.present
  obtain ⟨row, hrow, hid⟩ := exists_row_after (l := l) hm
  rw [hmid] at hid
  cases c with
  | selectProject | countProjects | selectTask => exact h.spared_begin w
  | selectProjects | countTasks | selectTasks =>
    simp only [exec]
    split
    · exact h.spared_begin w
    · exact h.spared
  | refreshProject | refreshTask =>
    simp only [exec]
    split <;> exact h.spared_begin w
  | insertProject id ownerId name description =>
    simp only [exec]
    split
    · rename_i haccepts
      refine h.spared_write w rfl fun heq => ?_
      have hnew := Option.some.inj heq
      rw [← hid] at hnew
      cases row with
      | task t => cases hnew
      | project p =>
        have hne := acceptsProject_fresh haccepts p (mem_rows_project.mp hrow)
        exact hne (RowId.project.inj hnew).symm
    · exact h.spared_begin w
  | insertTask id projectId fields =>
    simp only [exec]
    split
    · rename_i haccepts
      refine h.spared_write w rfl fun heq => ?_
      have hnew := Option.some.inj heq
      rw [← hid] at hnew
      cases row with
      | project p => cases hnew
      | task t =>
        have hne := acceptsTask_fresh haccepts t (mem_rows_task.mp hrow)
        exact hne (RowId.task.inj hnew).symm
    · exact h.spared_begin w
  | assignProject loaded fields => exact hassign (.project loaded fields) (Ne.symm hc)
  | assignTask loaded fields => exact hassign (.task loaded fields) (Ne.symm hc)
  | softDeleteByProject projectId =>
    refine h.spared_write w ?_ (by simp [Write.inserts])
    rw [Bool.eq_false_iff]
    intro htouches
    cases hbase : base.id with
    | project id =>
      rw [hbase] at htouches
      cases htouches
    | task id =>
      simp only [hbase, Write.touches, decide_eq_true_eq, List.mem_map, List.mem_filter,
        beq_iff_eq] at htouches
      obtain ⟨t, ⟨ht, hproject⟩, rfl⟩ := htouches
      have hmem : .task t ∈ (l.after w).rows := mem_rows_task.mpr (mem_active.mp ht).1
      have hparent := h.parent hw hmem hbase.symm hsent hdone
      exact hc (hparent.symm.trans (congrArg some hproject))
  | flush =>
    simp only [exec]
    cases hl : l.flush w with
    | none => exact h.spared
    | some l' => exact h.spared_flush hl
  | datetimeNow => exact h.spared
  | commit => cases hc
  | rollback => cases hc

theorem MergeOk.away (hpending : l.pending base.id = [])
    (hinserts : ∀ x ∈ l.written, x.inserts ≠ some base.id) : MergeOk base r .away l where
  pending := hpending
  inserts := hinserts
  unopened h := by cases h
  opened _ h := by cases h
  copy _ h := by cases h
  sends _ _ h := by cases h

theorem MergeOk.holding {fields sent : List Attr} (hpending : l.pending base.id = sent)
    (hinserts : ∀ x ∈ l.written, x.inserts ≠ some base.id)
    (hsends : Record.Sends Row.setattr Attr.column base fields sent)
    (hfields : ∀ a ∈ fields, a.column ∈ r.columns base) :
    MergeOk base r (.holding fields sent) l where
  pending := hpending
  inserts := hinserts
  unopened h := by cases h
  opened _ h := by cases h
  copy _ h := by cases h
  sends _ _ h := by
    cases h
    exact ⟨hsends, hfields⟩

/-- What a phase has in store is of the request's columns. -/
theorem MergeOk.sent_columns (h : MergeOk base r φ l) : ∀ b ∈ φ.sent, b.column ∈ r.columns base := by
  intro b hb
  cases φ with
  | holding fields sent =>
    obtain ⟨hsends, hfields⟩ := h.sends fields sent rfl
    exact hfields b (hsends.sublist.subset hb)
  | _ => cases hb

/-- An object whose copy is good gets its assignments. -/
theorem MergeOk.assign (h : MergeOk base r φ l) {x : Dirty} {n : Nat} (hφ : φ.copy = some x.row)
    (hr : r.writes base n = x.fields) :
    MergeOk base r (.holding x.fields x.changed) (exec env x.assign (l, w)).2.1 := by
  obtain ⟨hid, hcopy⟩ := h.copy x.row hφ
  have hsent : φ.sent = [] := by
    cases φ <;> first | rfl | cases hφ
  have hcolumns : ∀ a ∈ x.fields, a.column ∈ r.columns base := fun a ha => column_mem n (hr ▸ ha)
  rw [exec_assign]
  refine .holding ?_ h.inserts ?_ hcolumns
  · rw [pending_assign, h.pending, hsent, if_pos (touches_iff.mpr hid), List.nil_append]
  · exact .changed (hr ▸ writes_distinct n) fun a ha => hcopy a (hcolumns a ha)

/-- The cascade finds the task active and under its project. -/
theorem MergeOk.cascade {n : Nat} {id : UUID} (h : MergeOk base r (.opened n) l)
    (hw : RowOk base done w) (hactive : base.deletedAt = none)
    (hdone : ∀ k, ∀ b ∈ done k, b.column ∉ r.columns base)
    (hproject : ∀ k, ∀ b ∈ done k, b.column ≠ "project_id") (hr : r = .deleteProject id)
    (hbase : base.parent = some id) :
    MergeOk base r (.holding [.task (.deletedAt (some n))] [.task (.deletedAt (some n))])
      (exec env (.softDeleteByProject id) (l, w)).2.1 := by
  cases base with
  | project p => cases hbase
  | task b =>
    have hcolumn : "deleted_at" ∈ r.columns (.task b) := by
      simp [hr, Request.columns, Request.writes, Row.id, hbase, Attr.column, TaskAttr.column]
    have hclock : l.clock w = n := by simp [Session.clock, h.opened n rfl]
    obtain ⟨m, hm, hmid⟩ := hw.present
    obtain ⟨row, hrow, hid⟩ := exists_row_after (l := l) hm
    rw [hmid] at hid
    have hparent := h.parent hw hrow hid (by simp [MergePhase.sent]) hproject
    have hbase' : (Row.task b).setattr (.task (.deletedAt none)) = .task b := by
      cases b
      exact congrArg (fun d => Row.task ⟨_, _, _, _, _, _, _, _, _, d⟩) (Eq.symm hactive)
    have hdeleted := (h.view hw hrow hid (a := .task (.deletedAt none)) (by simp [MergePhase.sent])
      fun k a ha heq => hdone k a ha (heq ▸ hcolumn)).mpr hbase'
    have hfound : b.id ∈ ((active (l.tasks w)).filter fun t => t.projectId == id).map (·.id) := by
      cases row with
      | project p => cases hid
      | task t =>
        have hstill : t ∈ active (l.tasks w) :=
          mem_active.mpr ⟨mem_rows_task.mp hrow, congrArg Row.deletedAt hdeleted.symm⟩
        have hunder : (t.projectId == id) = true :=
          beq_iff_eq.mpr (Option.some.inj (hparent.trans hbase))
        exact List.mem_map.mpr ⟨t, List.mem_filter.mpr ⟨hstill, hunder⟩, RowId.task.inj hid⟩
    have hnothing : l.sent (.task b.id) = [] ∧
        (l.dirty.filter (·.touches (.task b.id))).flatMap Dirty.changed = [] :=
      List.append_eq_nil_iff.mp h.pending
    simp only [exec, hclock]
    have hsends : Record.Sends Row.setattr Attr.column (.task b)
        [.task (.deletedAt (some n))] [.task (.deletedAt (some n))] :=
      ⟨List.pairwise_singleton _ _, List.Sublist.refl _, fun a ha => .inl ha⟩
    refine .holding ?_ (fun x hx => ?_) hsends ?_
    · have htouches : Write.touches (.updateTasks (((active (l.tasks w)).filter fun t =>
          t.projectId == id).map (·.id)) [.deletedAt (some n)] n) (.task b.id) = true :=
        decide_eq_true hfound
      rw [Row.id, pending_write, if_pos htouches]
      exact congrArg₂ (fun x y => x ++ _ ++ y) hnothing.1 hnothing.2
    · rcases List.mem_append.mp hx with hx | hx
      · exact h.inserts x hx
      · simp [List.mem_singleton.mp hx, Write.inserts]
    · intro a ha
      rwa [List.mem_singleton.mp ha]

/-- What a statement of the request does to its session. -/
theorem MergeOk.move (env : Env) (h : MergeOk base r φ l) (hw : RowOk base done w)
    (hactive : base.deletedAt = none) (hdone : ∀ k, ∀ b ∈ done k, b.column ∉ r.columns base)
    (hproject : ∀ k, ∀ b ∈ done k, b.column ≠ "project_id")
    (hm : MergeMove base u r φ c (l, w) φ') (hc : c ≠ .commit) :
    MergeOk base r φ' (exec env c (l, w)).2.1 := by
  have hsent : ∀ b ∈ φ.sent, b.column ≠ "project_id" := by
    intro b hb heq
    exact projectId_not_mem (heq ▸ h.sent_columns b hb)
  generalize hs : (l, w) = s at hm
  cases hm with
  | leave hspares =>
    cases hs
    have hspared := h.spare env hw hspares hsent hproject
    exact .away (hspared.pending.trans h.pending) hspared.inserts
  | quiet hφ hspares =>
    cases hs
    have hspared := h.spare env hw hspares hsent hproject
    refine ⟨hspared.pending.trans h.pending, hspared.inserts, ?_, ?_, h.copy, h.sends⟩
    · rintro rfl
      cases hφ
    · exact fun n hn => hspared.began n (h.opened n hn)
  | opens hr hbase =>
    cases hs
    refine ⟨h.pending, h.inserts, by simp, ?_, by simp [MergePhase.copy], by simp⟩
    intro n hn
    obtain rfl := MergePhase.opened.inj hn
    simp [exec, Session.begin, Session.clock, h.unopened rfl]
  | find hselect hid hcopy =>
    cases hs
    subst hselect
    rw [exec_select]
    refine ⟨h.pending, h.inserts, by simp, by simp, ?_, by simp⟩
    rintro row hrow
    obtain rfl := Option.some.inj hrow
    refine ⟨hid, fun a ha => h.view hw hcopy hid (by simp [MergePhase.sent]) ?_⟩
    intro k b hb heq
    exact hdone k b hb (heq ▸ ha)
  | clock hr =>
    cases hs
    exact ⟨h.pending, h.inserts, by simp, by simp, fun row hrow => h.copy row hrow, by simp⟩
  | patch hr =>
    cases hs
    exact h.assign rfl (hr 0)
  | mark hr =>
    cases hs
    exact h.assign rfl hr
  | cascade hr hbase =>
    cases hs
    exact h.cascade hw hactive hdone hproject hr hbase
  | commit hφ hl => exact absurd rfl hc
  | refused hφ hl => exact absurd rfl hc
  | rollback hφ =>
    cases hs
    exact .away rfl (by simp [exec, Session.empty])

end Sessions

/-! ## Every order of the statements -/

/-- Different requests change different columns of the row. -/
def DisjointColumns {ι : Type} (base : Row) (requests : ι → UUID × Request) : Prop :=
  ∀ i k, i ≠ k → ∀ column ∈ (requests i).2.columns base, column ∉ (requests k).2.columns base

/-- What the log tells of a request in phase `φ`. -/
structure LogOk {ι : Type} (base : Row) (r : Request) (log : List (Event Cmd.Val Exc World ι))
    (i : ι) (φ : MergePhase) : Prop where
  instant : ∀ n, φ.instant = some n →
    ∃ e ∈ log, e.thread = i ∧ r.stamps base e.command ∧ e.before.now = n
  wrote : ∀ fields, φ.fields = some fields → Wrote base r log i fields

theorem LogOk.mono {ι : Type} {base : Row} {r : Request} {log log' : List (Event Cmd.Val Exc World ι)}
    {i : ι} {φ : MergePhase} (h : LogOk base r log i φ) (hlog : log ⊆ log') :
    LogOk base r log' i φ where
  instant n hn := by
    obtain ⟨e, he, hrest⟩ := h.instant n hn
    exact ⟨e, hlog he, hrest⟩
  wrote fields hfields := (h.wrote fields hfields).mono hlog

/-- What holds of a row while requests are under way. -/
structure Merging {ι : Type} (base : Row) (requests : ι → UUID × Request) (φ : ι → MergePhase)
    (c : Threads ι) : Prop where
  row : RowOk base (fun i => (φ i).done) c.world
  sessions : ∀ i, MergeOk base (requests i).2 (φ i) (c.threads i).locals
  logs : ∀ i, LogOk base (requests i).2 c.log i (φ i)

section Runs
variable {ι : Type} {env : Env} {base : Row} {requests : ι → UUID × Request} {φ : ι → MergePhase}
  {c : Threads ι}

theorem rows_unique {w : World} (hvalid : w.Valid) {row : Row} (hbase : base ∈ w.rows)
    (hrow : row ∈ w.rows) (hid : row.id = base.id) : row = base := by
  cases base with
  | task b =>
    cases row with
    | project p => cases hid
    | task t =>
      rw [hvalid.taskIds.eq_of_key (mem_rows_task.mp hrow) (mem_rows_task.mp hbase)
        (RowId.task.inj hid)]
  | project b =>
    cases row with
    | task t => cases hid
    | project p =>
      rw [hvalid.projectIds.eq_of_key (mem_rows_project.mp hrow) (mem_rows_project.mp hbase)
        (RowId.project.inj hid)]

theorem Merging.start {w : World} (hvalid : w.Valid) (hbase : base ∈ w.rows) :
    Merging base requests (fun _ => .start) (beside w requests) where
  row := {
    present := ⟨base, hbase, rfl⟩
    merged := fun row hrow hid => by
      obtain rfl := rows_unique hvalid hbase hrow hid
      exact ⟨.start, rfl⟩ }
  sessions _ := ⟨rfl, by simp [beside, Session.empty], fun _ => rfl, by simp,
    by simp [MergePhase.copy], by simp⟩
  logs _ := ⟨by simp [MergePhase.instant], by simp [MergePhase.fields]⟩

theorem Merging.drift (h : Merging base requests φ c) (n : Nat) [DecidableEq ι] :
    Merging base requests φ (c.step (machine env) (.drift n)) :=
  ⟨⟨h.row.present, h.row.merged⟩, h.sessions, h.logs⟩

/-- What a request has committed is of its columns. -/
theorem Merging.done_columns (h : Merging base requests φ c) {i : ι} :
    ∀ a ∈ (φ i).done, a.column ∈ (requests i).2.columns base := by
  intro a ha
  cases hφ : φ i with
  | committed fields =>
    rw [hφ] at ha
    exact ((h.logs i).wrote fields (by rw [hφ]; rfl)).mem_columns a ha
  | _ =>
    rw [hφ] at ha
    cases ha

theorem done_of_running {φ : MergePhase} (h : φ.running) : φ.done = [] := by
  cases φ with
  | committed fields => cases h
  | _ => rfl

/-- What the others have committed is of other columns. -/
theorem Merging.done_disjoint (h : Merging base requests φ c)
    (hdisjoint : DisjointColumns base requests) {i : ι} (hi : (φ i).running) :
    ∀ k, ∀ b ∈ (φ k).done, b.column ∉ (requests i).2.columns base := by
  intro k b hb hmem
  by_cases hk : k = i
  · subst hk
    rw [done_of_running hi] at hb
    cases hb
  · exact hdisjoint k i hk _ (h.done_columns b hb) hmem

/-- At the commit a request has its fields to send, or has none. -/
theorem Merging.sends (h : Merging base requests φ c) {i : ι} {fields : List Attr}
    (hφ : (φ i).commits base (requests i).2 fields) :
    Record.Sends Row.setattr Attr.column base fields (φ i).sent ∧
      Wrote base (requests i).2 c.log i fields := by
  have hnone : fields = [] → (requests i).2.columns base = [] →
      Record.Sends Row.setattr Attr.column base fields [] ∧
        Wrote base (requests i).2 c.log i fields := by
    rintro rfl hcolumns
    have hpatch : Wrote base (requests i).2 c.log i ((requests i).2.writes base 0) :=
      .patch fun n => by rw [writes_eq_nil hcolumns, writes_eq_nil hcolumns]
    rw [writes_eq_nil hcolumns] at hpatch
    exact ⟨.nil, hpatch⟩
  cases hphase : φ i with
  | holding fields' sent =>
    rw [hphase] at hφ
    obtain rfl : fields = fields' := hφ
    have hlog := (h.logs i).wrote fields (by rw [hphase]; rfl)
    exact ⟨((h.sessions i).sends fields sent hphase).1, hlog⟩
  | start =>
    rw [hphase] at hφ
    exact hnone hφ.1 hφ.2
  | away =>
    rw [hphase] at hφ
    exact hnone hφ.1 hφ.2
  | _ =>
    rw [hphase] at hφ
    cases hφ

variable [DecidableEq ι] {i : ι} {cmd : Cmd} {k : Except Exc cmd.Val → WorkM Reply} {φ' : MergePhase}
  {u : UUID} {r : Request} {s : State}

/-- Only a commit takes a request out of its running phases. -/
theorem MergeMove.running {ψ ψ' : MergePhase} (hm : MergeMove base u r ψ cmd s ψ') :
    ψ.running ∧ (cmd ≠ .commit → ψ'.running) := by
  cases hm with
  | quiet hφ hc =>
    have hrunning : ψ.running := by
      cases ψ with
      | committed fields => cases hφ
      | _ => exact trivial
    exact ⟨hrunning, fun _ => hrunning⟩
  | commit hφ hl => exact ⟨MergePhase.running_of_commits hφ, fun hc => absurd rfl hc⟩
  | refused hφ hl => exact ⟨hφ, fun _ => hφ⟩
  | rollback hφ => exact ⟨hφ, fun _ => trivial⟩
  | _ => exact ⟨trivial, fun _ => trivial⟩

/-- The instant of a deletion is read by the command that stamps the row. -/
theorem MergeMove.instant {ψ ψ' : MergePhase} {n : Nat} (hm : MergeMove base u r ψ cmd s ψ')
    (hn : ψ'.instant = some n) :
    ψ.instant = some n ∨ (r.stamps base cmd ∧ s.2.now = n) := by
  cases hm with
  | quiet | refused => exact .inl hn
  | opens hr hbase =>
    subst hr
    exact .inr ⟨hbase, Option.some.inj hn⟩
  | clock hr => exact .inr ⟨hr, Option.some.inj hn⟩
  | _ => cases hn

/-- What a request assigns is the fields of its body, or a stamp of the instant it has read. -/
theorem MergeMove.wrote {ψ ψ' : MergePhase} {fields : List Attr} (hm : MergeMove base u r ψ cmd s ψ')
    (hc : cmd ≠ .commit) (hfields : ψ'.fields = some fields) :
    ψ.fields = some fields ∨ (∀ n, r.writes base n = fields) ∨
      ∃ n, ψ.instant = some n ∧ r.writes base n = fields := by
  cases hm with
  | quiet | refused => exact .inl hfields
  | patch hr =>
    obtain rfl := Option.some.inj hfields
    exact .inr (.inl hr)
  | mark hr =>
    obtain rfl := Option.some.inj hfields
    exact .inr (.inr ⟨_, rfl, hr⟩)
  | cascade hr hbase =>
    obtain rfl := Option.some.inj hfields
    refine .inr (.inr ⟨_, rfl, ?_⟩)
    cases base with
    | project p => cases hbase
    | task b => simp [hr, Request.writes, Row.id, hbase]
  | commit => exact absurd rfl hc
  | _ => cases hfields

theorem LogOk.statement {ψ ψ' : MergePhase} (h : LogOk base r c.log i ψ)
    (hm : MergeMove base u r ψ cmd ((c.threads i).locals, c.world) ψ') (hc : cmd ≠ .commit) :
    LogOk base r (c.issue (machine env) i cmd k).log i ψ' := by
  have hlog : c.log ⊆ (c.issue (machine env) i cmd k).log := List.subset_cons_self ..
  constructor
  · intro n hn
    rcases hm.instant hn with hn | ⟨hstamps, hnow⟩
    · exact (h.mono hlog).instant n hn
    · exact ⟨_, List.mem_cons_self, rfl, hstamps, hnow⟩
  · intro fields hfields
    rcases hm.wrote hc hfields with hfields | hpatch | ⟨n, hn, rfl⟩
    · exact (h.mono hlog).wrote fields hfields
    · rw [← hpatch 0]
      exact .patch fun n => (hpatch n).trans (hpatch 0).symm
    · obtain ⟨e, he, hthread, hstamps, rfl⟩ := h.instant n hn
      exact .stamp (hlog he) hthread hstamps

/-- A statement that is not a commit. -/
theorem Merging.statement (h : Merging base requests φ c) (hactive : base.deletedAt = none)
    (hdisjoint : DisjointColumns base requests)
    (hm : MergeMove base (requests i).1 (requests i).2 (φ i) cmd ((c.threads i).locals, c.world) φ')
    (hc : cmd ≠ .commit) :
    Merging base requests (Function.update φ i φ') (c.issue (machine env) i cmd k) := by
  obtain ⟨hrunning, hrunning'⟩ := hm.running
  have hworld : (c.issue (machine env) i cmd k).world = c.world := exec_world hc
  have hlog : c.log ⊆ (c.issue (machine env) i cmd k).log := List.subset_cons_self ..
  have hsame : φ'.done = (φ i).done := by
    rw [done_of_running (hrunning' hc), done_of_running hrunning]
  have hdone : (fun j => (Function.update φ i φ' j).done) = fun j => (φ j).done := by
    refine (Function.comp_update MergePhase.done φ i φ').trans ?_
    rw [hsame]
    exact Function.update_eq_self i _
  have hproject : ∀ j, ∀ b ∈ (φ j).done, b.column ≠ "project_id" := by
    intro j b hb heq
    exact projectId_not_mem (heq ▸ h.done_columns b hb)
  refine ⟨?_, ?_, ?_⟩
  · rw [hdone, hworld]
    exact h.row
  · exact forall_issue (m := machine env) (P := fun j ψ l => MergeOk base (requests j).2 ψ l)
      ((h.sessions i).move env h.row hactive (h.done_disjoint hdisjoint hrunning) hproject hm hc)
      fun j _ => h.sessions j
  · exact (Function.forall_update_iff φ fun j ψ => LogOk base (requests j).2 _ j ψ).mpr
      ⟨(h.logs i).statement hm hc, fun j _ => (h.logs j).mono hlog⟩

/-- A commit. -/
theorem Merging.commit (h : Merging base requests φ c) (hdisjoint : DisjointColumns base requests)
    {fields : List Attr} {l' : Session} (hφ : (φ i).commits base (requests i).2 fields)
    (hl : (c.threads i).locals.flush c.world = some l')
    {k : Except Exc Unit → WorkM Reply} :
    Merging base requests (Function.update φ i (.committed fields))
      (c.issue (machine env) i .commit k) := by
  have hrow : FlushedRow base.id (c.threads i).locals l' c.world := flush_row hl
  have hrunning := MergePhase.running_of_commits hφ
  have hexec : exec env .commit ((c.threads i).locals, c.world) =
      (.ok (), .empty, l'.after c.world) := by
    simp only [exec, hl]
    rfl
  have hworld : (c.issue (machine env) i .commit k).world = l'.after c.world := by
    rw [world_issue, hexec]
  have hlog : c.log ⊆ (c.issue (machine env) i .commit k).log := List.subset_cons_self ..
  have hdone : (fun j => (Function.update φ i (.committed fields) j).done) =
      Function.update (fun j => (φ j).done) i fields :=
    Function.comp_update MergePhase.done φ i (.committed fields)
  have hinserts := ((h.sessions i).spared_flush hl).inserts
  have hsent : l'.sent base.id = (φ i).sent := hrow.sent.trans (h.sessions i).pending
  obtain ⟨hsends, hwrote⟩ := h.sends hφ
  refine ⟨⟨?_, ?_⟩, ?_, ?_⟩
  · rw [hworld]
    obtain ⟨m, hm, hmid⟩ := h.row.present
    obtain ⟨row, hrow, hid⟩ := exists_row_after (l := l') hm
    exact ⟨row, hrow, hid.trans hmid⟩
  · rw [hworld, hdone]
    intro row hmem hid
    obtain ⟨m, hm, hmid, n, rfl⟩ := row_of_after hmem hid hinserts
    obtain ⟨hmerged, hcreated⟩ := h.row.merged m hm hmid
    rw [hsent]
    refine ⟨(hmerged.send Row.columns (done_of_running hrunning) hsends ?_).congr Row.alike_touch, ?_⟩
    · intro j b hb a ha heq
      exact h.done_disjoint hdisjoint hrunning j b hb (heq ▸ hwrote.mem_columns a ha)
    · rw [Row.createdAt_touch, Row.createdAt_setattrs, hcreated]
  · refine forall_issue (m := machine env) (P := fun j ψ l => MergeOk base (requests j).2 ψ l) ?_
      fun j _ => h.sessions j
    have hempty : (exec env .commit ((c.threads i).locals, c.world)).2.1 = .empty := by rw [hexec]
    rw [show ((machine env).exec .commit ((c.threads i).locals, c.world)).2.1 = .empty from hempty]
    exact ⟨rfl, by simp [Session.empty], by simp, by simp, by simp [MergePhase.copy], by simp⟩
  · refine (Function.forall_update_iff φ fun j ψ => LogOk base (requests j).2 _ j ψ).mpr
      ⟨⟨by simp [MergePhase.instant], fun fields' hfields' => ?_⟩, fun j _ => (h.logs j).mono hlog⟩
    obtain rfl := Option.some.inj hfields'
    exact hwrote.mono hlog

/-- A commit that the tables refuse. -/
theorem Merging.refused (h : Merging base requests φ c)
    (hl : (c.threads i).locals.flush c.world = none) {k : Except Exc Unit → WorkM Reply} :
    Merging base requests φ (c.issue (machine env) i .commit k) := by
  have hexec : (exec env .commit ((c.threads i).locals, c.world)).2 =
      ((c.threads i).locals, c.world) := by
    simp only [exec, hl]
  have hlog : c.log ⊆ (c.issue (machine env) i .commit k).log := List.subset_cons_self ..
  refine ⟨?_, fun j => ?_, fun j => (h.logs j).mono hlog⟩
  · rw [world_issue, hexec]
    exact h.row
  · by_cases hj : j = i
    · subst hj
      rw [Config.threads_issue_self]
      rw [show (machine env).exec .commit ((c.threads j).locals, c.world) =
        exec env .commit ((c.threads j).locals, c.world) from rfl, hexec]
      exact h.sessions j
    · rw [Config.threads_issue_of_ne hj]
      exact h.sessions j

theorem MergeMove.of_commit {ψ ψ' : MergePhase} {l : Session} {w : World}
    (hm : MergeMove base u r ψ .commit (l, w) ψ') :
    (∃ fields l', ψ.commits base r fields ∧ l.flush w = some l' ∧ ψ' = .committed fields) ∨
      (l.flush w = none ∧ ψ' = ψ) := by
  generalize hcmd : Cmd.commit = c at hm
  generalize hs : (l, w) = s at hm
  cases hm with
  | leave hc | quiet hφ hc =>
    subst hcmd
    cases hc
  | find hc hid hcopy =>
    rw [← hcmd] at hc
    cases hbase : base.id <;> simp [hbase, RowId.select] at hc
  | @patch x | @mark x => cases x <;> cases hcmd
  | opens | clock | cascade | rollback => cases hcmd
  | commit hφ hl =>
    cases hs
    exact .inl ⟨_, _, hφ, hl, rfl⟩
  | refused hφ hl =>
    cases hs
    exact .inr ⟨hl, rfl⟩

/-- Every statement keeps what holds of the row. -/
theorem Merging.move (h : Merging base requests φ c) (hactive : base.deletedAt = none)
    (hdisjoint : DisjointColumns base requests)
    (hm : MergeMove base (requests i).1 (requests i).2 (φ i) cmd ((c.threads i).locals, c.world) φ') :
    Merging base requests (Function.update φ i φ') (c.issue (machine env) i cmd k) := by
  by_cases hc : cmd = .commit
  · subst hc
    rcases hm.of_commit with ⟨fields, l', hφ, hl, rfl⟩ | ⟨hl, rfl⟩
    · exact h.commit hdisjoint hφ hl
    · rw [Function.update_eq_self]
      exact h.refused hl
  · exact h.statement hactive hdisjoint hm hc

end Runs

/-! ## The row after a run -/

/-- The row has what the committed requests have written to it, and is otherwise as before. -/
structure RowMerges {ι : Type} (base : Row) (requests : ι → UUID × Request) (c : Threads ι)
    (row : Row) : Prop where
  createdAt : row.createdAt = base.createdAt
  written : ∀ i reply, c.outcome i = some (.ok reply) →
    ∃ fields, Wrote base (requests i).2 c.log i fields ∧ ∀ a ∈ fields, row.setattr a = row
  kept : ∀ a : Attr, (∀ i reply, c.outcome i = some (.ok reply) →
    a.column ∉ (requests i).2.columns base) → (row.setattr a = row ↔ base.setattr a = base)

/-- A request that has committed has ended well. -/
theorem outcome_of_committed {ι : Type} {env : Env} {base : Row} {requests : ι → UUID × Request}
    {φ : ι → MergePhase} {c : Threads ι}
    (hobey : AllObey (machine env) (fun i => MergeMove base (requests i).1 (requests i).2)
      (fun _ => MergeFinal) φ c) {i : ι} {fields : List Attr} (hφ : φ i = .committed fields) :
    ∃ reply, c.outcome i = some (.ok reply) := by
  have hstuck : ∀ cmd s φ', ¬ MergeMove base (requests i).1 (requests i).2 (φ i) cmd s φ' := by
    intro cmd s φ' hm
    have hrunning := hm.running.1
    rw [hφ] at hrunning
    exact hrunning
  obtain ⟨o, ho⟩ := hobey.exists_outcome hstuck
  have hfinal := hobey.final ho
  rw [hφ] at hfinal
  cases o with
  | ok reply => exact ⟨reply, ho⟩
  | error e => cases hfinal

/-- Requests that change different columns of an active row do not lose each other's
changes, in whatever order their statements come. -/
theorem rows_merge {ι : Type} [DecidableEq ι] (env : Env) (w : World) (hvalid : w.Valid)
    (requests : ι → UUID × Request) (base : Row) (hbase : base ∈ w.rows)
    (hactive : base.deletedAt = none) (hdisjoint : DisjointColumns base requests)
    (schedule : List (Act ι Nat)) :
    let c := (beside w requests).run (machine env) schedule
    (∃ row ∈ c.world.rows, row.id = base.id) ∧
      ∀ row ∈ c.world.rows, row.id = base.id → RowMerges base requests c row := by
  intro c
  obtain ⟨φ, hobey, h⟩ := run_invariant_forall (J := Merging base requests)
    (fun φ c n _ h => h.drift n)
    (fun φ c i cmd k φ' _ h hp hm => h.move hactive hdisjoint hm)
    (merges_obey env base w requests) (.start hvalid hbase) schedule
  refine ⟨h.row.present, fun row hrow hid => ?_⟩
  obtain ⟨hmerged, hcreated⟩ := h.row.merged row hrow hid
  refine ⟨hcreated, fun i reply houtcome => ?_, fun a ha => hmerged.kept a fun k b hb heq => ?_⟩
  · obtain ⟨fields, hφ⟩ := hobey.final houtcome
    refine ⟨fields, (h.logs i).wrote fields (by rw [hφ]; rfl), fun a ha => hmerged.written i a ?_⟩
    rw [hφ]
    exact ha
  · cases hφ : φ k with
    | committed fields =>
      obtain ⟨reply, hreply⟩ := outcome_of_committed hobey hφ
      exact ha k reply hreply (heq ▸ h.done_columns b hb)
    | _ =>
      rw [hφ] at hb
      cases hb

end TaskMgtApp.Work
