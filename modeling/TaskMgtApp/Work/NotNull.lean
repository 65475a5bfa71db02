import TaskMgtApp.Work.DeleteOnce

/-!
# No column is empty that may not be

A statement that would leave a NOT NULL column empty is refused, whatever has been
committed since its session began. So in every order of the statements of any requests
each stored row fits its response model.
-/
namespace TaskMgtApp.Work

open TaskMgtApp.Common
open TaskMgtApp.Lib.Program TaskMgtApp.Lib.Interleaving TaskMgtApp.Lib.Rows

/-! ## Rows and assignments -/

/-- The assignment leaves no NOT NULL column without a value. -/
def ProjectAttr.fills : ProjectAttr → Bool
  | .name v => v.isSome
  | _ => true

def TaskAttr.fills : TaskAttr → Bool
  | .title v => v.isSome
  | .status v => v.isSome
  | .priority v => v.isSome
  | _ => true

theorem ProjectAttr.fills_of_storable {a : ProjectAttr} (h : a.storable) : a.fills := by
  cases a with
  | name v => cases v with
    | none => cases h
    | some v => rfl
  | _ => rfl

theorem TaskAttr.fills_of_storable {projects : List Project} {a : TaskAttr}
    (h : a.storable projects) : a.fills := by
  cases a with
  | title v => cases v with
    | none => cases h
    | some v => rfl
  | status v => exact h
  | priority v => exact h
  | _ => rfl

theorem Project.filled_setattrs {p : Project} (hp : p.filled) {fields : List ProjectAttr}
    (hfields : ∀ a ∈ fields, a.fills) : (p.setattrs fields).filled := by
  induction fields generalizing p with
  | nil => exact hp
  | cons a as ih =>
    obtain ⟨ha, has⟩ := List.forall_mem_cons.mp hfields
    refine ih ?_ has
    cases a with
    | name v => exact ha
    | _ => exact hp

theorem Task.filled_setattrs {t : Task} (ht : t.filled) {fields : List TaskAttr}
    (hfields : ∀ a ∈ fields, a.fills) : (t.setattrs fields).filled := by
  induction fields generalizing t with
  | nil => exact ht
  | cons a as ih =>
    obtain ⟨ha, has⟩ := List.forall_mem_cons.mp hfields
    refine ih ?_ has
    have hcolumns := ht
    simp only [Task.filled, Bool.and_eq_true] at hcolumns ⊢
    obtain ⟨⟨htitle, hstatus⟩, hpriority⟩ := hcolumns
    cases a with
    | title v => exact ⟨⟨ha, hstatus⟩, hpriority⟩
    | status v => exact ⟨⟨htitle, ha⟩, hpriority⟩
    | priority v => exact ⟨⟨htitle, hstatus⟩, ha⟩
    | _ => exact ⟨⟨htitle, hstatus⟩, hpriority⟩

/-! ## Tables and statements -/

/-- The statement keeps the NOT NULL columns of every row. -/
def Write.Fills : Write → Prop
  | .insertProject row => row.filled
  | .updateProject _ fields _ => ∀ a ∈ fields, a.fills
  | .insertTask row => row.filled
  | .updateTasks _ fields _ => ∀ a ∈ fields, a.fills

def Session.Fills (l : Session) : Prop := ∀ x ∈ l.written, x.Fills

section Statements
variable {w : World} {l l' : Session} {x : Write}

theorem World.Filled.write (h : w.Filled) (hx : x.Fills) : (w.write x).Filled := by
  cases x with
  | insertProject row =>
    exact ⟨List.forall_mem_append.mpr ⟨h.projects, List.forall_mem_singleton.mpr hx⟩, h.tasks⟩
  | insertTask row =>
    exact ⟨h.projects, List.forall_mem_append.mpr ⟨h.tasks, List.forall_mem_singleton.mpr hx⟩⟩
  | updateProject id fields n =>
    refine ⟨?_, h.tasks⟩
    intro p' hp'
    obtain ⟨p, hp, rfl⟩ := List.mem_map.mp hp'
    split
    · exact Project.filled_setattrs (h.projects p hp) hx
    · exact h.projects p hp
  | updateTasks ids fields n =>
    refine ⟨h.projects, ?_⟩
    intro t' ht'
    obtain ⟨t, ht, rfl⟩ := List.mem_map.mp ht'
    split
    · exact Task.filled_setattrs (h.tasks t ht) hx
    · exact h.tasks t ht

theorem World.Filled.after (h : w.Filled) (hl : l.Fills) : (l.after w).Filled := by
  rw [after_eq_foldl]
  unfold Session.Fills at hl
  generalize l.written = writes at hl
  induction writes generalizing w with
  | nil => exact h
  | cons x xs ih =>
    obtain ⟨hx, hxs⟩ := List.forall_mem_cons.mp hl
    exact ih (h.write hx) hxs

theorem Session.Fills.write (h : l.Fills) (hx : x.Fills) : (l.write x).Fills :=
  List.forall_mem_append.mpr ⟨h, List.forall_mem_singleton.mpr hx⟩

theorem Session.Fills.flushOne (h : l.Fills) {x : Dirty} (hl : l.flushOne w x = some l') :
    l'.Fills := by
  cases x with
  | project loaded fields =>
    simp only [Session.flushOne] at hl
    split at hl
    · obtain rfl := Option.some.inj hl
      exact h
    · split at hl
      · rename_i hall
        obtain rfl := Option.some.inj hl
        refine h.write fun a ha => ?_
        exact ProjectAttr.fills_of_storable (List.all_eq_true.mp hall a ha)
      · cases hl
  | task loaded fields =>
    simp only [Session.flushOne] at hl
    split at hl
    · obtain rfl := Option.some.inj hl
      exact h
    · split at hl
      · rename_i hall
        obtain rfl := Option.some.inj hl
        refine h.write fun a ha => ?_
        exact TaskAttr.fills_of_storable (List.all_eq_true.mp hall a ha)
      · cases hl

theorem Session.Fills.flush (h : l.Fills) (hl : l.flush w = some l') : l'.Fills := by
  have hsteps := foldlM_induction (P := fun _ l₁ l₂ => l₁.Fills → l₂.Fills) (fun _ h₁ => h₁)
    (fun _ _ _ _ _ hl₁ hrest h₁ => hrest (h₁.flushOne hl₁)) hl
  exact hsteps h

/-- What one command leaves of a session and of the tables. -/
theorem exec_fills (env : Env) (hw : w.Filled) (hl : l.Fills) (c : Cmd) :
    (exec env c (l, w)).2.1.Fills ∧ (exec env c (l, w)).2.2.Filled := by
  cases c with
  | selectProject | countProjects | assignProject | selectTask | assignTask | datetimeNow =>
    exact ⟨hl, hw⟩
  | selectProjects | refreshProject | countTasks | selectTasks | refreshTask =>
    simp only [exec]
    split <;> exact ⟨hl, hw⟩
  | insertProject id ownerId name description =>
    simp only [exec]
    split
    · rename_i haccepts
      have hrow := (Bool.and_eq_true _ _ ▸ haccepts).2
      exact ⟨Session.Fills.write hl (Project.filled_of_storable hrow), hw⟩
    · exact ⟨hl, hw⟩
  | insertTask id projectId fields =>
    simp only [exec]
    split
    · rename_i haccepts
      have hrow := (Bool.and_eq_true _ _ ▸ haccepts).2
      exact ⟨Session.Fills.write hl (Task.filled_of_storable hrow), hw⟩
    · exact ⟨hl, hw⟩
  | softDeleteByProject projectId =>
    exact ⟨Session.Fills.write hl (List.forall_mem_singleton.mpr rfl), hw⟩
  | flush =>
    simp only [exec]
    split
    · rename_i l' hflush
      exact ⟨hl.flush hflush, hw⟩
    · exact ⟨hl, hw⟩
  | commit =>
    simp only [exec]
    split
    · rename_i l' hflush
      exact ⟨List.forall_mem_nil _, hw.after (hl.flush hflush)⟩
    · exact ⟨hl, hw⟩
  | rollback => exact ⟨List.forall_mem_nil _, hw⟩

end Statements

/-! ## Every order of the statements -/

/-- The rows have their NOT NULL columns, and will have them after any of the sessions. -/
structure NotNull {ι : Type} (c : Threads ι) : Prop where
  world : c.world.Filled
  sessions : ∀ i, (c.threads i).locals.Fills

section Runs
variable {ι : Type} {c : Threads ι}

theorem NotNull.start {w : World} (hvalid : w.Valid) (requests : ι → UUID × Request) :
    NotNull (beside w requests) :=
  ⟨hvalid.filled, fun _ => List.forall_mem_nil _⟩

theorem NotNull.drift [DecidableEq ι] {env : Env} (h : NotNull c) (seconds : Nat) :
    NotNull (c.step (machine env) (.drift seconds)) :=
  ⟨⟨h.world.projects, h.world.tasks⟩, h.sessions⟩

theorem NotNull.issue [DecidableEq ι] (env : Env) (h : NotNull c) (i : ι) (cmd : Cmd)
    (k : Except Exc cmd.Val → WorkM Reply) : NotNull (c.issue (machine env) i cmd k) := by
  obtain ⟨hsession, hworld⟩ := exec_fills env h.world (h.sessions i) cmd
  refine ⟨hworld, fun j => ?_⟩
  by_cases hj : j = i
  · subst hj
    rw [Config.threads_issue_self]
    exact hsession
  · rw [Config.threads_issue_of_ne hj]
    exact h.sessions j

end Runs

end TaskMgtApp.Work
