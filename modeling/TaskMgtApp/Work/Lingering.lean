import TaskMgtApp.Lib.Rely
import TaskMgtApp.Work.Refinement

/-!
# A request takes its time

Between two statements of a request time passes. A statement takes the time from the
transaction, which has begun with the first of them; only `mark_deleted` looks at the clock
again, and what it writes is not read any more. So a request, however long it takes, answers
and leaves to its user what it would at once, at the instant of its first statement
(`lingering_program`).
-/
namespace TaskMgtApp.Work

open TaskMgtApp.Common
open TaskMgtApp.Lib.Program TaskMgtApp.Lib.Program.Prog
open TaskMgtApp.Lib.Rely TaskMgtApp.Lib.Rows

/-- Time passes, and nothing else happens. -/
def Later (w w' : World) : Prop := ∃ n, w' = { w with now := n }

/-- The commands in the body of a request that deletes nothing. -/
def Cmd.calm : Cmd → Bool
  | .datetimeNow | .flush | .commit | .rollback => false
  | _ => true

section Statements
variable {env : Env} {l l' : Session} {w : World} {c : Cmd} {n m : Nat}

theorem clock_later (hl : l.began = some n) (w : World) : l.clock w = n := by
  simp [Session.clock, hl]

theorem begin_later (hl : l.began = some n) (w : World) : l.begin w = l := by
  simp [Session.begin, clock_later hl, ← hl]

theorem flushOne_later (hl : l.began = some n) (y : Dirty) :
    l.flushOne { w with now := m } y = l.flushOne w y := by
  have hprojects : l.projects { w with now := m } = l.projects w := rfl
  cases y <;> simp only [Session.flushOne, clock_later hl, hprojects]

theorem began_flushOne {y : Dirty} (h : l.flushOne w y = some l') : l'.began = l.began := by
  cases y with
  | project loaded fields | task loaded fields =>
    simp only [Session.flushOne] at h
    split at h
    · rw [← Option.some.inj h]
    · split at h
      · rw [← Option.some.inj h]
        rfl
      · cases h

/-- What is flushed has the time of the transaction. -/
theorem flush_later (hl : l.began = some n) : l.flush { w with now := m } = l.flush w := by
  unfold Session.flush
  rw [begin_later hl, begin_later hl]
  have hs : ({ l with dirty := [] } : Session).began = some n := hl
  generalize ({ l with dirty := [] } : Session) = s at hs
  induction l.dirty generalizing s with
  | nil => rfl
  | cons y ys ih =>
    rw [List.foldlM_cons, List.foldlM_cons, flushOne_later hs]
    cases hy : s.flushOne w y with
    | none => rfl
    | some s' => exact ih s' ((began_flushOne hy).trans hs)

/-- In a transaction that has begun, a statement does the same later. -/
theorem exec_later (env : Env) (hc : c ≠ .datetimeNow) (hl : l.began = some n) :
    exec env c (l, { w with now := m }) =
      ((exec env c (l, w)).1, (exec env c (l, w)).2.1, { (exec env c (l, w)).2.2 with now := m }) := by
  have hprojects : l.projects { w with now := m } = l.projects w := rfl
  have htasks : l.tasks { w with now := m } = l.tasks w := rfl
  cases c with
  | datetimeNow => exact absurd rfl hc
  | flush =>
    simp only [exec, flush_later hl]
    cases l.flush w <;> rfl
  | commit =>
    simp only [exec, flush_later hl]
    cases l.flush w <;> rfl
  | selectProjects | insertProject | refreshProject | countTasks | selectTasks | insertTask
  | refreshTask =>
    simp only [exec, hprojects, htasks, clock_later hl, begin_later hl]
    split <;> rfl
  | _ => simp only [exec, hprojects, htasks, clock_later hl, begin_later hl]

/-- The transaction goes on with a command of the body. -/
theorem began_exec (hc : c.calm) (hl : l.began = some n) : (exec env c (l, w)).2.1.began = some n := by
  cases c with
  | datetimeNow | flush | commit | rollback => cases hc
  | selectProjects | insertProject | refreshProject | countTasks | selectTasks | insertTask
  | refreshTask =>
    simp only [exec, begin_later hl]
    split <;> exact hl
  | _ =>
    simp only [exec, begin_later hl]
    exact hl

end Statements
/-! ## `get_db` -/

/-- What the body leaves to `get_db`, which commits it, or rolls back. -/
def Closing {α : Type} (P : Except Exc α → World → Prop) : Except Exc α → State → Prop
  | .ok a, s => (s.1.committed s.2).elim (P (.error .dbError) s.2) (P (.ok a))
  | .error e, s => P (.error e) s.2

theorem ends_getDb {α : Type} {env : Env} {Rely : World → World → Prop} {body : WorkM α} {s : State}
    {P : Except Exc α → World → Prop} (hP : ∀ o w w', Rely w w' → P o w → P o w')
    (hbody : Ends (exec env) Rely (Closing P) body s) :
    Ends (exec env) Rely (fun o s => P o s.2) (getDb body) s := by
  refine Ends.catch (Q := fun o s => P o s.2) (hbody.bind ?_ fun e s h => h) (fun a s h => h) ?_
  · intro a s h v hv
    obtain ⟨l, w⟩ := s
    simp only [Closing, Session.committed] at h
    cases hflush : l.flush w with
    | some l' =>
      simp only [hflush] at h
      simp only [exec, hflush] at hv ⊢
      exact hP _ _ _ hv h
    | none =>
      simp only [hflush] at h
      simp only [exec, hflush] at hv ⊢
      exact hP _ _ _ hv h
  · intro e s h v hv
    exact hP _ _ _ hv h

/-! ## `delete` -/

section Marking
variable {env : Env} {Rely : World → World → Prop} {I : World → Prop} {l : Session} {w : World}
  {n : Nat} {Q : Except Exc Unit → State → Prop}

/-- A task that was active is stamped, at some time. -/
theorem ends_deleteTask {t : Task} (hI : ∀ v v', Rely v v' → I v → I v') (hw : I w)
    (hl : l.began = some n) (hdirty : l.dirty = []) (hactive : t.deletedAt = none)
    (hQ : ∀ m v, I v → Q (.ok ()) (l.write (.updateTasks [t.id] [.deletedAt (some m)] n), v)) :
    Ends (exec env) Rely Q (TaskRepository.delete t) (l, w) := by
  obtain ⟨_, _, written⟩ := l
  obtain rfl : _ = some n := hl
  obtain rfl : _ = [] := hdirty
  intro v₁ hv₁ v₂ hv₂ v₃ hv₃
  simp only [exec, List.nil_append, flush_one, flushOne_deleteTask _ _ hactive] at hv₃ ⊢
  exact hQ _ _ (hI _ _ hv₃ (hI _ _ hv₂ (hI _ _ hv₁ hw)))

theorem ends_deleteProject {p : Project} (hI : ∀ v v', Rely v v' → I v → I v') (hw : I w)
    (hl : l.began = some n) (hdirty : l.dirty = []) (hactive : p.deletedAt = none)
    (hQ : ∀ m v, I v → Q (.ok ()) (l.write (.updateProject p.id [.deletedAt (some m)] n), v)) :
    Ends (exec env) Rely Q (ProjectRepository.delete p) (l, w) := by
  obtain ⟨_, _, written⟩ := l
  obtain rfl : _ = some n := hl
  obtain rfl : _ = [] := hdirty
  intro v₁ hv₁ v₂ hv₂ v₃ hv₃
  simp only [exec, List.nil_append, flush_one, flushOne_delete _ _ hactive] at hv₃ ⊢
  exact hQ _ _ (hI _ _ hv₃ (hI _ _ hv₂ (hI _ _ hv₁ hw)))

end Marking

/-! ## Requests that delete nothing -/

section Bodies
variable {α : Type} {env : Env} {l : Session} {w : World} {c : Cmd} {n m : Nat}

/-- In a transaction that has begun, the rest of a body ends later as it would at once. -/
theorem lingering_body (env : Env) {p : WorkM α} (hp : p.Only (Cmd.calm ·)) (hl : l.began = some n)
    (w : World) (m : Nat) :
    Ends (exec env) Later (fun o s => s.1.began = some n ∧ ∃ m, let z := p.run (exec env) (l, w)
      (o, s) = (z.1, z.2.1, { z.2.2 with now := m })) p (l, { w with now := m }) := by
  induction p generalizing l w m with
  | done r => exact ⟨hl, m, rfl⟩
  | call c k ih =>
    obtain ⟨hc, hk⟩ := hp
    have hclock : c ≠ .datetimeNow := by
      rintro rfl
      cases hc
    intro w' hw'
    rw [exec_later env hclock hl] at hw' ⊢
    obtain ⟨m', rfl⟩ := hw'
    exact ih _ (hk _) (began_exec hc hl) _ m'

/-- The first statement opens the transaction, or nothing but its refusal is left. -/
def Opens (env : Env) (w : World) (p : WorkM α) : Prop :=
  ∃ c k, p = .call c k ∧ ((exec env c (.empty, w)).2.1.began = some w.now ∨
    ∃ e, k (exec env c (.empty, w)).1 = .done (.error e))

theorem lingering_first (env : Env) {p : WorkM α} (hp : p.Only (Cmd.calm ·)) (hopens : Opens env w p) :
    Ends (exec env) Later (fun o s => ((∃ a, o = .ok a) → s.1.began = some w.now) ∧ ∃ m,
      let z := p.run (exec env) (.empty, w)
      (o, s) = (z.1, z.2.1, { z.2.2 with now := m })) p (.empty, w) := by
  obtain ⟨c, k, rfl, hbegan | ⟨e, he⟩⟩ := hopens
  · intro w' hw'
    obtain ⟨m, rfl⟩ := hw'
    exact (lingering_body env (hp.2 _) hbegan _ m).mono fun o s h => ⟨fun _ => h.1, h.2⟩
  · intro w' hw'
    obtain ⟨m, rfl⟩ := hw'
    rw [he, run_call, he]
    refine ⟨fun ⟨a, ha⟩ => ?_, m, rfl⟩
    cases ha

theorem Later.trans {u v w : World} (h : Later u v) (h' : Later v w) : Later u w := by
  obtain ⟨n, rfl⟩ := h
  obtain ⟨m, rfl⟩ := h'
  exact ⟨m, rfl⟩

theorem committed_later (hl : l.began = some n) :
    l.committed { w with now := m } = (l.committed w).map fun w => { w with now := m } := by
  unfold Session.committed
  rw [flush_later hl, Option.map_map]
  rfl

theorem lingering_calm (env : Env) (w : World) {u : UUID} {r : Request}
    (hcalm : (r.endpoint u).Only (Cmd.calm ·)) (hopens : Opens env w (r.endpoint u)) :
    Ends (exec env) Later (fun o s => o = (serve env w u r).1 ∧ Later (serve env w u r).2 s.2)
      (r.program u) (.empty, w) := by
  refine ends_getDb (P := fun o v => o = (serve env w u r).1 ∧ Later (serve env w u r).2 v)
    (fun o v v' hv h => ⟨h.1, h.2.trans hv⟩) ((lingering_first env hcalm hopens).mono ?_)
  rintro o s ⟨hbegan, m, hs⟩
  rw [serve_eq]
  generalize (r.endpoint u).run (exec env) (.empty, w) = z at hs
  obtain ⟨o', l, w'⟩ := z
  obtain ⟨rfl, rfl⟩ := Prod.mk.inj hs
  cases o with
  | error e => exact ⟨rfl, m, rfl⟩
  | ok a =>
    have hl : l.began = some w.now := hbegan ⟨a, rfl⟩
    have hcommitted := committed_later (w := w') (m := m) hl
    cases hw : l.committed w' with
    | none =>
      rw [hw] at hcommitted
      simp only [Closing, hcommitted, hw, Option.map_none]
      exact ⟨trivial, m, rfl⟩
    | some w'' =>
      rw [hw] at hcommitted
      simp only [Closing, hcommitted, hw, Option.map_some]
      exact ⟨trivial, m, rfl⟩

end Bodies

/-! ## Requests that delete -/

section Deletes
variable {env : Env} {w w' : World} {u : UUID} {n m : Nat}

/-- The store of an owner has nothing of the rows that are deleted. -/
theorem entries_congr (hprojects : active w.projects = active w'.projects)
    (htasks : active w.tasks = active w'.tasks) : w.entries u = w'.entries u := by
  unfold World.entries entryOf tasksUnder ownedProjects
  rw [hprojects, htasks]

/-- What is stamped is not active, whatever the stamp. -/
theorem active_stampTasks (rows : List Task) (ids : List UUID) (n m : Nat) :
    active (Write.onTasks rows (.updateTasks ids [.deletedAt (some n)] m)) =
      (active rows).filter fun t => t.id ∉ ids :=
  filter_map_of_fails (fun _ => rfl) rows

theorem active_stampProject (rows : List Project) (id : UUID) (n m : Nat) :
    active (Write.onProjects rows (.updateProject id [.deletedAt (some n)] m)) =
      (active rows).filter fun p => p.id ≠ id :=
  filter_map_of_fails (fun _ => rfl) rows

/-- The outcome, and the store of the user, as after the request has been served at once. -/
def AsServed (env : Env) (w : World) (u : UUID) (r : Request) (o : Except Exc Reply) (v : World) : Prop :=
  o = (serve env w u r).1 ∧ v.entries u = (serve env w u r).2.entries u

theorem AsServed.later {r : Request} (o : Except Exc Reply) (v v' : World) (hv : Later v v')
    (h : AsServed env w u r o v) : AsServed env w u r o v' := by
  obtain ⟨n, rfl⟩ := hv
  exact h

theorem lingering_deleteTask (env : Env) (w : World) (u id : UUID) :
    Ends (exec env) Later (fun o s => AsServed env w u (.deleteTask id) o s.2)
      ((Request.deleteTask id).program u) (.empty, w) := by
  refine ends_getDb AsServed.later ?_
  have hserve := serve_deleteTask env w u id
  unfold World.task? at hserve
  simp only [Request.endpoint, TaskService.delete, TaskService.get, TaskRepository.getByIdForOwner,
    perform_bind, call_bind, ends_call]
  rintro _ ⟨n₁, rfl⟩
  simp only [exec, projects_empty, tasks_empty, done_ok_bind]
  unfold AsServed
  cases ht : (ownedTasks w.projects w.tasks u).find? fun t => t.id == id with
  | none =>
    rw [ht] at hserve
    rw [hserve]
    exact ⟨rfl, rfl⟩
  | some t =>
    obtain ⟨-, hactive, -⟩ := mem_ownedTasks.mp (List.mem_of_find?_eq_some ht)
    rw [ht] at hserve
    rw [hserve]
    refine Ends.bind (Q := fun o => Closing _ (o.map fun _ => Reply.noContent))
      (ends_deleteTask (I := Later w) (fun _ _ hv h => h.trans hv) ⟨n₁, rfl⟩ rfl rfl hactive ?_)
      (fun _ _ h => h) fun _ _ h => h
    rintro m _ ⟨k, rfl⟩
    simp only [Except.map, Closing]
    rw [committed_clean _ _ rfl]
    have htasks : active (Write.onTasks w.tasks (.updateTasks [t.id] [.deletedAt (some m)] w.now)) =
        active (w.dropTask t).tasks :=
      (active_stampTasks ..).trans (active_stampTasks ..).symm
    exact ⟨trivial, entries_congr rfl htasks⟩

theorem lingering_deleteProject (env : Env) (w : World) (u id : UUID) :
    Ends (exec env) Later (fun o s => AsServed env w u (.deleteProject id) o s.2)
      ((Request.deleteProject id).program u) (.empty, w) := by
  refine ends_getDb AsServed.later ?_
  have hserve := serve_deleteProject env w u id
  unfold World.project? at hserve
  simp only [Request.endpoint, ProjectService.delete, ProjectService.get,
    ProjectRepository.getByIdForOwner, perform_bind, call_bind, ends_call]
  rintro _ ⟨n₁, rfl⟩
  simp only [exec, projects_empty, done_ok_bind]
  unfold AsServed
  cases hp : (ownedProjects w.projects u).find? fun p => p.id == id with
  | none =>
    rw [hp] at hserve
    rw [hserve]
    exact ⟨rfl, rfl⟩
  | some p =>
    obtain ⟨-, hactive, -⟩ := mem_ownedProjects.mp (List.mem_of_find?_eq_some hp)
    rw [hp] at hserve
    rw [hserve]
    rintro _ ⟨n₂, rfl⟩
    refine Ends.bind (Q := fun o => Closing _ (o.map fun _ => Reply.noContent))
      (ends_deleteProject (I := Later w) (fun _ _ hv h => h.trans hv) ⟨n₂, rfl⟩ rfl rfl hactive ?_)
      (fun _ _ h => h) fun _ _ h => h
    rintro m _ ⟨k, rfl⟩
    simp only [Except.map, Closing]
    rw [committed_clean _ _ rfl]
    have hprojects : active (Write.onProjects w.projects (.updateProject p.id [.deletedAt (some m)] w.now)) =
        active (w.dropProject p).projects :=
      (active_stampProject ..).trans (active_stampProject ..).symm
    exact ⟨trivial, entries_congr hprojects rfl⟩

end Deletes

/-! ## Every request -/

section Requests
variable {env : Env} {w : World} {u : UUID}

theorem calm_respond (reply : Option Reply) : (respond reply).Only (Cmd.calm ·) := by
  cases reply <;> exact trivial

theorem calm_projectGet (id : UUID) : (ProjectService.get id u).Only (Cmd.calm ·) := by
  refine Only.bind (only_perform.mpr rfl) fun found => ?_
  cases found <;> exact trivial

theorem calm_taskGet (id : UUID) : (TaskService.get id u).Only (Cmd.calm ·) := by
  refine Only.bind (only_perform.mpr rfl) fun found => ?_
  cases found <;> exact trivial

/-- A request that takes its time ends as if it had been served when its transaction began. -/
theorem lingering_program (env : Env) (w : World) (u : UUID) (r : Request) :
    Ends (exec env) Later (fun o s => AsServed env w u r o s.2) (r.program u) (.empty, w) := by
  have hcalm : ∀ {r}, (Request.endpoint u r).Only (Cmd.calm ·) → Opens env w (Request.endpoint u r) →
      Ends (exec env) Later (fun o s => AsServed env w u r o s.2) (r.program u) (.empty, w) := by
    intro r hcalm hopens
    refine (lingering_calm env w hcalm hopens).mono ?_
    rintro o s ⟨rfl, n, hs⟩
    exact ⟨rfl, by rw [hs]; rfl⟩
  cases r with
  | deleteProject id => exact lingering_deleteProject env w u id
  | deleteTask id => exact lingering_deleteTask env w u id
  | getProject id =>
    exact hcalm ((calm_projectGet id).bind fun _ => calm_respond _) ⟨_, _, rfl, .inl rfl⟩
  | getTask id =>
    exact hcalm ((calm_taskGet id).bind fun _ => calm_respond _) ⟨_, _, rfl, .inl rfl⟩
  | updateProject id payload =>
    refine hcalm (.bind ?_ fun _ => calm_respond _) ⟨_, _, rfl, .inl rfl⟩
    exact (calm_projectGet id).bind fun _ => .bind (only_perform.mpr rfl) fun _ => trivial
  | updateTask id payload =>
    refine hcalm (.bind ?_ fun _ => calm_respond _) ⟨_, _, rfl, .inl rfl⟩
    exact (calm_taskGet id).bind fun _ => .bind (only_perform.mpr rfl) fun _ => trivial
  | listProjects pageParams ties =>
    refine hcalm (.bind ?_ fun _ => calm_respond _) ⟨_, _, rfl, .inl rfl⟩
    exact .bind (only_perform.mpr rfl) fun _ => .bind (only_perform.mpr rfl) fun _ => trivial
  | listTasks pageParams filters ties =>
    refine hcalm (.bind ?_ fun _ => calm_respond _) ⟨_, _, rfl, ?_⟩
    · exact .bind (only_perform.mpr rfl) fun _ => .bind (only_perform.mpr rfl) fun _ => trivial
    · cases hsend : filters.sendable with
      | true =>
        left
        simp only [exec, hsend, if_true]
        rfl
      | false =>
        right
        simp only [exec, hsend]
        exact ⟨_, rfl⟩
  | createProject payload uuid4 =>
    refine hcalm (.bind ?_ fun _ => calm_respond _) ⟨_, _, rfl, .inl ?_⟩
    · exact .bind (only_perform.mpr rfl) fun _ => only_perform.mpr rfl
    · simp only [exec]
      split <;> rfl
  | createTask payload uuid4 =>
    refine hcalm (.bind (.bind (only_perform.mpr rfl) fun found => ?_) fun _ => calm_respond _)
      ⟨_, _, rfl, .inl rfl⟩
    cases found with
    | none => exact trivial
    | some p => exact .bind (only_perform.mpr rfl) fun _ => only_perform.mpr rfl

end Requests

end TaskMgtApp.Work
