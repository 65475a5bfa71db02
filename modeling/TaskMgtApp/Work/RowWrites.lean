import TaskMgtApp.Lib.Merge
import TaskMgtApp.Work.DeleteOnce

/-!
# What a session is about to write to a row

A row of `tasks` or of `projects`, its columns, and what a session has in store for it:
the assignments of the statements it has sent, and those of its marked objects that the
next flush will send. A flush moves them from the objects to the statements; the commit
applies them to the row as it is then, and moves `updated_at`.
-/
namespace TaskMgtApp.Work

open TaskMgtApp.Common
open TaskMgtApp.Lib

/-! ## Rows and their columns -/

inductive Row where
  | task (t : Task)
  | project (p : Project)
  deriving DecidableEq

inductive Attr where
  | task (a : TaskAttr)
  | project (a : ProjectAttr)
  deriving DecidableEq

namespace Row

def id : Row → RowId
  | task t => .task t.id
  | project p => .project p.id

def createdAt : Row → Nat
  | task t => t.createdAt
  | project p => p.createdAt

def deletedAt : Row → Option Nat
  | task t => t.deletedAt
  | project p => p.deletedAt

/-- The project of a task. -/
def parent : Row → Option UUID
  | task t => some t.projectId
  | project _ => none

/-- `setattr`; an attribute of the other table leaves the row alone. -/
def setattr : Row → Attr → Row
  | task t, .task a => .task (t.setattr a)
  | project p, .project a => .project (p.setattr a)
  | row, _ => row

/-- The row with another `updated_at`. -/
def touch (n : Nat) : Row → Row
  | task t => .task { t with updatedAt := n }
  | project p => .project { p with updatedAt := n }

end Row

def Attr.column : Attr → String
  | task a => a.column
  | project a => a.column

def World.rows (w : World) : List Row := w.tasks.map .task ++ w.projects.map .project

section Rows
variable {w : World} {row : Row} {n : Nat}

theorem mem_rows_task {t : Task} : .task t ∈ w.rows ↔ t ∈ w.tasks := by simp [World.rows]

theorem mem_rows_project {p : Project} : .project p ∈ w.rows ↔ p ∈ w.projects := by
  simp [World.rows]

theorem Row.columns : Record.Columns Row.setattr Attr.column where
  again row a := by
    cases row <;> cases a
    · exact congrArg Row.task (Task.columns.again _ _)
    · rfl
    · rfl
    · exact congrArg Row.project (Project.columns.again _ _)
  other row a b h := by
    cases row <;> cases a <;> cases b
    · simpa [Row.setattr] using Task.columns.other _ _ _ h
    all_goals first
      | exact Iff.rfl
      | simp [Row.setattr]
    exact Project.columns.other _ _ _ h

@[simp] theorem Row.createdAt_setattrs (fields : List Attr) :
    (fields.foldl Row.setattr row).createdAt = row.createdAt := by
  induction fields generalizing row with
  | nil => rfl
  | cons a as ih =>
    rw [List.foldl_cons, ih]
    cases row <;> cases a <;> rename_i a <;> first | rfl | (cases a <;> rfl)

@[simp] theorem Row.createdAt_touch : (row.touch n).createdAt = row.createdAt := by
  cases row <;> rfl

theorem Row.touch_setattr (a : Attr) : (row.touch n).setattr a = (row.setattr a).touch n := by
  cases row <;> cases a <;> rename_i a <;> first | rfl | (cases a <;> rfl)

theorem Row.touch_setattrs (fields : List Attr) :
    fields.foldl Row.setattr (row.touch n) = (fields.foldl Row.setattr row).touch n := by
  induction fields generalizing row with
  | nil => rfl
  | cons a as ih => rw [List.foldl_cons, Row.touch_setattr, ih, List.foldl_cons]

@[simp] theorem Row.touch_touch (k : Nat) : (row.touch n).touch k = row.touch k := by
  cases row <;> rfl

theorem Row.exists_touch (row : Row) : ∃ n, row = row.touch n := by
  cases row with
  | task t => exact ⟨t.updatedAt, rfl⟩
  | project p => exact ⟨p.updatedAt, rfl⟩

/-- `updated_at` is no column that a request assigns. -/
theorem Row.alike_touch : Record.Alike Row.setattr (row.touch n) row := by
  intro a
  cases row <;> cases a <;> rename_i r a <;> cases r <;>
    first | exact Iff.rfl | (cases a <;> simp [Row.setattr, Row.touch, Task.setattr, Project.setattr])

end Rows

/-! ## What one statement writes to a row -/

/-- The assignments of an UPDATE. -/
def Write.fields : Write → List Attr
  | .updateTasks _ fields _ => fields.map .task
  | .updateProject _ fields _ => fields.map .project
  | _ => []

def Write.inserts : Write → Option RowId
  | .insertTask row => some (.task row.id)
  | .insertProject row => some (.project row.id)
  | _ => none

/-- The object with the assignments it has been given. -/
def Dirty.row : Dirty → Row
  | .task loaded _ => .task loaded
  | .project loaded _ => .project loaded

def Dirty.fields : Dirty → List Attr
  | .task _ fields => fields.map .task
  | .project _ fields => fields.map .project

/-- The assignments that the next flush sends for the object. -/
def Dirty.changed (x : Dirty) : List Attr := Record.changed Row.setattr x.row x.fields

/-- The assignments to the row that the session has sent. -/
def Session.sent (l : Session) (r : RowId) : List Attr :=
  (l.written.filter (·.touches r)).flatMap Write.fields

/-- The assignments to the row that the session has in store. -/
def Session.pending (l : Session) (r : RowId) : List Attr :=
  l.sent r ++ (l.dirty.filter (·.touches r)).flatMap Dirty.changed

section Statements
variable {w : World} {x : Write} {row : Row}

theorem Row.setattrs_task (t : Task) (fields : List TaskAttr) :
    (fields.map Attr.task).foldl Row.setattr (.task t) = .task (t.setattrs fields) := by
  induction fields generalizing t with
  | nil => rfl
  | cons a as ih => exact ih (t.setattr a)

theorem Row.setattrs_project (p : Project) (fields : List ProjectAttr) :
    (fields.map Attr.project).foldl Row.setattr (.project p) = .project (p.setattrs fields) := by
  induction fields generalizing p with
  | nil => rfl
  | cons a as ih => exact ih (p.setattr a)

/-- A row after one statement is one from before it with the assignments made. -/
theorem row_of_write (hrow : row ∈ (w.write x).rows) (hx : x.inserts ≠ some row.id) :
    ∃ m ∈ w.rows, m.id = row.id ∧ ∃ n,
      row = ((if x.touches row.id then x.fields else []).foldl Row.setattr m).touch n := by
  have hsame : row ∈ w.rows → x.touches row.id = false → ∃ m ∈ w.rows, m.id = row.id ∧ ∃ n,
      row = ((if x.touches row.id then x.fields else []).foldl Row.setattr m).touch n := by
    intro hmem htouches
    rw [htouches]
    exact ⟨row, hmem, rfl, row.exists_touch⟩
  cases row with
  | task t =>
    rw [mem_rows_task] at hrow
    cases x with
    | insertTask new =>
      rcases List.mem_append.mp hrow with hrow | hrow
      · exact hsame (mem_rows_task.mpr hrow) rfl
      · obtain rfl := List.mem_singleton.mp hrow
        exact absurd rfl hx
    | insertProject new => exact hsame (mem_rows_task.mpr hrow) rfl
    | updateProject id fields at_ => exact hsame (mem_rows_task.mpr hrow) rfl
    | updateTasks ids fields at_ =>
      obtain ⟨s, hs, rfl⟩ := List.mem_map.mp hrow
      by_cases hid : s.id ∈ ids
      · rw [if_pos hid]
        refine ⟨.task s, mem_rows_task.mpr hs, by simp [Row.id], at_, ?_⟩
        have htouches : Write.touches (.updateTasks ids fields at_)
            (Row.id (.task { s.setattrs fields with updatedAt := at_ })) = true := by
          simpa [Row.id, Write.touches] using hid
        rw [if_pos htouches, Write.fields, Row.setattrs_task]
        rfl
      · rw [if_neg hid] at hsame ⊢
        exact hsame (mem_rows_task.mpr hs) (by simpa [Row.id, Write.touches] using hid)
  | project p =>
    rw [mem_rows_project] at hrow
    cases x with
    | insertTask new => exact hsame (mem_rows_project.mpr hrow) rfl
    | insertProject new =>
      rcases List.mem_append.mp hrow with hrow | hrow
      · exact hsame (mem_rows_project.mpr hrow) rfl
      · obtain rfl := List.mem_singleton.mp hrow
        exact absurd rfl hx
    | updateTasks ids fields at_ => exact hsame (mem_rows_project.mpr hrow) rfl
    | updateProject id fields at_ =>
      obtain ⟨q, hq, rfl⟩ := List.mem_map.mp hrow
      by_cases hid : q.id = id
      · rw [if_pos hid]
        refine ⟨.project q, mem_rows_project.mpr hq, by simp [Row.id], at_, ?_⟩
        have htouches : Write.touches (.updateProject id fields at_)
            (Row.id (.project { q.setattrs fields with updatedAt := at_ })) = true := by
          simpa [Row.id, Write.touches] using hid
        rw [if_pos htouches, Write.fields, Row.setattrs_project]
        rfl
      · rw [if_neg hid] at hsame ⊢
        exact hsame (mem_rows_project.mpr hq) (by simpa [Row.id, Write.touches] using hid)

/-- No statement takes a row away. -/
theorem exists_row_write (hrow : row ∈ w.rows) : ∃ m ∈ (w.write x).rows, m.id = row.id := by
  cases row with
  | task t =>
    rw [mem_rows_task] at hrow
    cases x with
    | insertTask new => exact ⟨_, mem_rows_task.mpr (List.mem_append_left _ hrow), rfl⟩
    | insertProject new => exact ⟨_, mem_rows_task.mpr hrow, rfl⟩
    | updateProject id fields at_ => exact ⟨_, mem_rows_task.mpr hrow, rfl⟩
    | updateTasks ids fields at_ =>
      refine ⟨_, mem_rows_task.mpr (List.mem_map_of_mem hrow), ?_⟩
      simp only [Row.id]
      split <;> simp
  | project p =>
    rw [mem_rows_project] at hrow
    cases x with
    | insertTask new => exact ⟨_, mem_rows_project.mpr hrow, rfl⟩
    | insertProject new => exact ⟨_, mem_rows_project.mpr (List.mem_append_left _ hrow), rfl⟩
    | updateTasks ids fields at_ => exact ⟨_, mem_rows_project.mpr hrow, rfl⟩
    | updateProject id fields at_ =>
      refine ⟨_, mem_rows_project.mpr (List.mem_map_of_mem hrow), ?_⟩
      simp only [Row.id]
      split <;> simp

end Statements

/-! ## What a session writes to a row -/

section Sessions
variable {w : World} {l l' : Session} {row : Row} {r : RowId} {x : Dirty}

theorem sent_write {y : Write} :
    (l.write y).sent r = l.sent r ++ if y.touches r then y.fields else [] := by
  rw [Session.sent, Session.write, List.filter_append, List.flatMap_append]
  cases hy : y.touches r <;> simp [Session.sent, hy]

theorem pending_write {y : Write} : (l.write y).pending r =
    l.sent r ++ (if y.touches r then y.fields else []) ++
      (l.dirty.filter (·.touches r)).flatMap Dirty.changed :=
  congrArg (· ++ _) sent_write

theorem pending_assign : ({ l with dirty := l.dirty ++ [x] } : Session).pending r =
    l.pending r ++ if x.touches r then x.changed else [] := by
  unfold Session.pending
  rw [List.filter_append, List.flatMap_append, ← List.append_assoc]
  cases hx : x.touches r <;> simp [hx, Session.sent]

theorem touches_iff : x.touches r = true ↔ x.row.id = r := by
  cases x <;> cases r <;> simp [Dirty.touches, Dirty.row, Row.id, eq_comm]

/-- A row that the session sees is a committed one with its statements' assignments made. -/
theorem row_of_after (hrow : row ∈ (l.after w).rows) (hid : row.id = r)
    (hl : ∀ x ∈ l.written, x.inserts ≠ some r) :
    ∃ m ∈ w.rows, m.id = r ∧ ∃ n, row = ((l.sent r).foldl Row.setattr m).touch n := by
  unfold Session.sent
  rw [after_eq_foldl] at hrow
  generalize l.written = writes at hrow hl
  induction writes using List.reverseRecOn generalizing row with
  | nil => exact ⟨row, hrow, hid, row.exists_touch⟩
  | append_singleton writes x ih =>
    rw [List.foldl_append] at hrow
    obtain ⟨m', hm', hid', k, hk⟩ := row_of_write hrow (hid ▸ hl x (by simp))
    rw [hid] at hid' hk
    obtain ⟨m, hm, hmid, n, rfl⟩ := ih hid' hm' fun y hy => hl y (by simp [hy])
    refine ⟨m, hm, hmid, k, ?_⟩
    have hfields : ([x].filter (·.touches r)).flatMap Write.fields =
        if x.touches r then x.fields else [] := by
      cases hx : x.touches r <;> simp [hx]
    rw [hk, List.filter_append, List.flatMap_append, List.foldl_append, hfields,
      Row.touch_setattrs, Row.touch_touch]

theorem exists_row_after (hrow : row ∈ w.rows) : ∃ m ∈ (l.after w).rows, m.id = row.id := by
  rw [after_eq_foldl]
  generalize l.written = writes
  induction writes generalizing w row with
  | nil => exact ⟨row, hrow, rfl⟩
  | cons x xs ih =>
    obtain ⟨m, hm, hid⟩ := exists_row_write (x := x) hrow
    obtain ⟨m', hm', hid'⟩ := ih hm
    exact ⟨m', hm', hid'.trans hid⟩

theorem Dirty.changed_task (loaded : Task) (fields : List TaskAttr) :
    (Dirty.task loaded fields).changed =
      (fields.filter fun a => loaded.setattr a ≠ loaded).map .task := by
  simp [Dirty.changed, Dirty.row, Dirty.fields, Record.changed, List.filter_map, Row.setattr,
    Function.comp_def]

theorem Dirty.changed_project (loaded : Project) (fields : List ProjectAttr) :
    (Dirty.project loaded fields).changed =
      (fields.filter fun a => loaded.setattr a ≠ loaded).map .project := by
  simp [Dirty.changed, Dirty.row, Dirty.fields, Record.changed, List.filter_map, Row.setattr,
    Function.comp_def]

/-- The flush of one object moves what it sends from the object to the statements. -/
theorem flushOne_sent (hl : l.flushOne w x = some l') :
    l'.began = l.began ∧ l'.dirty = l.dirty ∧
      (∀ y ∈ l'.written, y ∈ l.written ∨ y.inserts = none) ∧
      l'.sent r = l.sent r ++ if x.touches r then x.changed else [] := by
  have hstay : x.changed = [] → l.began = l.began ∧ l.dirty = l.dirty ∧
      (∀ y ∈ l.written, y ∈ l.written ∨ y.inserts = none) ∧
      l.sent r = l.sent r ++ if x.touches r then x.changed else [] := by
    intro hnil
    rw [hnil, ite_self, List.append_nil]
    exact ⟨rfl, rfl, fun y hy => .inl hy, rfl⟩
  have hsend : ∀ y : Write, y.inserts = none → y.touches r = x.touches r → y.fields = x.changed →
      (l.write y).began = l.began ∧ (l.write y).dirty = l.dirty ∧
      (∀ z ∈ (l.write y).written, z ∈ l.written ∨ z.inserts = none) ∧
      (l.write y).sent r = l.sent r ++ if x.touches r then x.changed else [] := by
    intro y hinserts htouches hfields
    refine ⟨rfl, rfl, fun z hz => ?_, ?_⟩
    · rcases List.mem_append.mp hz with hz | hz
      · exact .inl hz
      · exact .inr (List.mem_singleton.mp hz ▸ hinserts)
    · rw [sent_write, htouches, hfields]
  cases x with
  | task loaded fields =>
    simp only [Session.flushOne] at hl
    split at hl
    · rename_i hnil
      obtain rfl := Option.some.inj hl
      exact hstay (by rw [Dirty.changed_task, hnil, List.map_nil])
    · split at hl
      · obtain rfl := Option.some.inj hl
        exact hsend _ rfl (by cases r <;> simp [Write.touches, Dirty.touches])
          (Dirty.changed_task loaded fields).symm
      · cases hl
  | project loaded fields =>
    simp only [Session.flushOne] at hl
    split at hl
    · rename_i hnil
      obtain rfl := Option.some.inj hl
      exact hstay (by rw [Dirty.changed_project, hnil, List.map_nil])
    · split at hl
      · obtain rfl := Option.some.inj hl
        exact hsend _ rfl (by cases r <;> simp [Write.touches, Dirty.touches])
          (Dirty.changed_project loaded fields).symm
      · cases hl

/-- What a flush leaves of a session: statements, with the same in store for every row. -/
structure FlushedRow (r : RowId) (l l' : Session) (w : World) : Prop where
  began : l'.began = some (l.clock w)
  dirty : l'.dirty = []
  inserts : ∀ y ∈ l'.written, y ∈ l.written ∨ y.inserts = none
  sent : l'.sent r = l.pending r

theorem flush_row (hl : l.flush w = some l') : FlushedRow r l l' w := by
  have hsteps := Rows.foldlM_induction (P := fun dirty l₁ l₂ => l₂.began = l₁.began ∧
      l₂.dirty = l₁.dirty ∧ (∀ y ∈ l₂.written, y ∈ l₁.written ∨ y.inserts = none) ∧
      l₂.sent r = l₁.sent r ++ (dirty.filter (·.touches r)).flatMap Dirty.changed) ?_ ?_ hl
  · obtain ⟨hbegan, hdirty, hinserts, hsent⟩ := hsteps
    exact ⟨hbegan, hdirty, hinserts, hsent⟩
  · exact fun l₁ => ⟨rfl, rfl, fun y hy => .inl hy, (List.append_nil _).symm⟩
  · intro x xs l₁ l₂ l₃ hl₂ hrest
    obtain ⟨hbegan, hdirty, hinserts, hsent⟩ := flushOne_sent hl₂
    obtain ⟨hbegan', hdirty', hinserts', hsent'⟩ := hrest
    refine ⟨hbegan'.trans hbegan, hdirty'.trans hdirty, fun y hy => ?_, ?_⟩
    · rcases hinserts' y hy with hy | hy
      · exact hinserts y hy
      · exact .inr hy
    · rw [hsent', hsent, List.append_assoc]
      cases hx : x.touches r <;> simp [hx]

end Sessions

end TaskMgtApp.Work
