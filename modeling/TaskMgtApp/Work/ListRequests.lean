import TaskMgtApp.Work.Cascade

/-!
# The statements of a list request

A list request counts the matching rows, selects its page of them, and commits. The
driver refuses a statement whose search text has a NUL or whose OFFSET does not fit a
`bigint`, and the request ends there with a rollback.
-/
namespace TaskMgtApp.Work

open TaskMgtApp.Common
open TaskMgtApp.Lib.Program TaskMgtApp.Lib.Program.Prog
open TaskMgtApp.Lib.Interleaving TaskMgtApp.Lib.Listing

/-! ## List requests -/

def Request.isList : Request → Bool
  | .listProjects .. | .listTasks .. => true
  | _ => false

/-- The two statements of a list request. -/
def Request.countCmd (u : UUID) : Request → Option Cmd
  | .listProjects .. => some (.countProjects u)
  | .listTasks _ filters _ => some (.countTasks u filters)
  | _ => none

def Request.pageCmd (u : UUID) : Request → Option Cmd
  | .listProjects pp ties => some (.selectProjects u ties pp.offset pp.limit)
  | .listTasks pp filters ties => some (.selectTasks u filters ties pp.offset pp.limit)
  | _ => none

/-- Whether the driver can send the statements. -/
def Request.sendable : Request → Bool
  | .listProjects pp _ => bigintOk pp.offset
  | .listTasks pp filters _ => filters.sendable && bigintOk pp.offset
  | _ => true

section Rows
variable (env : Env) (w : World) (u : UUID)

/-- The number of rows that a list request counts. -/
def Request.matching : Request → Nat
  | .listProjects .. => (ownedProjects w.projects u).length
  | .listTasks _ filters _ => (w.tasksFor env u filters).length
  | _ => 0

/-- What a list request makes of its page of the rows and of a total. -/
def Request.listed (total : Nat) : Request → Option Reply
  | .listProjects pp ties =>
      ((page pp.offset pp.limit (newest ties (ownedProjects w.projects u))).mapM
        ProjectRead.modelValidate).map fun items => .projects items total pp.page pp.pageSize
  | .listTasks pp filters ties =>
      ((page pp.offset pp.limit (newest ties (w.tasksFor env u filters))).mapM
        TaskRead.modelValidate).map fun items => .tasks items total pp.page pp.pageSize
  | _ => none

theorem serve_list {r : Request} (hr : r.isList = true) :
    serve env w u r = if r.sendable then (answer (r.listed env w u (r.matching env w u)), w)
      else (.error .dbError, w) := by
  cases r with
  | listProjects pp ties => exact serve_listProjects env w u pp ties
  | listTasks pp filters ties => exact serve_listTasks env w u pp filters ties
  | _ => cases hr

end Rows

theorem after_clean {l : Session} {w : World} (h : l.written = []) : l.after w = w := by
  unfold Session.after Session.projects Session.tasks
  rw [h]
  rfl

/-- The statements of a list leave the session as it was. -/
theorem kept_list {env : Env} {u : UUID} {r : Request} {cmd : Cmd} {l : Session} {w : World}
    (hc : r.countCmd u = some cmd ∨ r.pageCmd u = some cmd) :
    (exec env cmd (l, w)).2.1.written = l.written ∧ (exec env cmd (l, w)).2.1.dirty = l.dirty := by
  cases r with
  | listProjects pp ties =>
    rcases hc with hc | hc
    · obtain rfl := Option.some.inj hc
      exact ⟨rfl, rfl⟩
    · obtain rfl := Option.some.inj hc
      simp only [exec]
      split <;> exact ⟨rfl, rfl⟩
  | listTasks pp filters ties =>
    rcases hc with hc | hc
    all_goals
      obtain rfl := Option.some.inj hc
      simp only [exec]
      split <;> exact ⟨rfl, rfl⟩
  | _ => rcases hc with hc | hc <;> cases hc

/-! ## The moves of a list request -/

/-- How far a list request has come. -/
inductive PagePhase where
  | start
  | counted (total : Nat)
  /-- The rows of the page have been selected; this is what the serialization makes of them. -/
  | selected (reply : Option Reply)
  | committed (reply : Reply)
  /-- The driver has refused a statement. -/
  | refused
  /-- The commit has been refused. -/
  | unsaved (reply : Reply)
  | failed

/-- The phases in which an exception is on its way out. -/
def PagePhase.raised : PagePhase → Prop
  | refused | unsaved _ | selected none => True
  | _ => False

inductive PageMove (env : Env) (u : UUID) (r : Request) : PagePhase → Cmd → State → PagePhase → Prop
  | other {φ : PagePhase} {c : Cmd} {s : State} (hr : r.isList = false) : PageMove env u r φ c s φ
  | count {c : Cmd} {l : Session} {w : World} (hc : r.countCmd u = some c) :
      PageMove env u r .start c (l, w) (.counted (r.matching env (l.after w) u))
  | countRefused {c : Cmd} {s : State} (hc : r.countCmd u = some c) (hsend : ¬ r.sendable = true) :
      PageMove env u r .start c s .refused
  | select {c : Cmd} {l : Session} {w : World} {n : Nat} (hc : r.pageCmd u = some c)
      (hsend : r.sendable = true) :
      PageMove env u r (.counted n) c (l, w) (.selected (r.listed env (l.after w) u n))
  | selectRefused {c : Cmd} {s : State} {n : Nat} (hc : r.pageCmd u = some c)
      (hsend : ¬ r.sendable = true) : PageMove env u r (.counted n) c s .refused
  | commit {reply : Reply} {l l' : Session} {w : World} (hl : l.flush w = some l') :
      PageMove env u r (.selected (some reply)) .commit (l, w) (.committed reply)
  | commitRefused {reply : Reply} {l : Session} {w : World} (hl : l.flush w = none) :
      PageMove env u r (.selected (some reply)) .commit (l, w) (.unsaved reply)
  | rollback {φ : PagePhase} {s : State} (hφ : φ.raised) : PageMove env u r φ .rollback s .failed

/-- A list request ends with the page it has committed, or with an exception after a rollback. -/
def PageFinal (r : Request) (φ : PagePhase) (o : Except Exc Reply) : Prop :=
  r.isList = true → (∃ reply, o = .ok reply ∧ φ = .committed reply) ∨ ∃ e, o = .error e ∧ φ = .failed

section Obeys
variable {env : Env} {u : UUID}

theorem rollback_obeys {r : Request} (φ : PagePhase) (hφ : φ.raised) (e : Exc) :
    Obeys (exec env) (PageMove env u r) (PageFinal r) φ
      (do let _ ← execute .rollback; throw e : WorkM Reply) := by
  intro s
  exact ⟨.failed, .rollback hφ, fun _ => .inr ⟨e, rfl, rfl⟩⟩

/-- The request from the moment it has its rows: serialization and commit. -/
theorem selected_obeys {r : Request} (reply : Option Reply) :
    Obeys (exec env) (PageMove env u r) (PageFinal r) (.selected reply) (getDb (respond reply)) := by
  cases reply with
  | none => exact rollback_obeys (.selected none) trivial _
  | some reply =>
    rintro ⟨l, w⟩
    cases hl : l.flush w with
    | none =>
      refine ⟨_, .commitRefused hl, ?_⟩
      simp only [exec, hl]
      exact rollback_obeys (.unsaved reply) trivial _
    | some l' =>
      refine ⟨_, .commit hl, ?_⟩
      simp only [exec, hl]
      exact fun _ => .inl ⟨reply, rfl, rfl⟩

theorem listProjects_obeys (pp : PageParams) (ties : TieOrder) :
    Obeys (exec env) (PageMove env u (.listProjects pp ties)) (PageFinal (.listProjects pp ties))
      .start ((Request.listProjects pp ties).program u) := by
  rintro ⟨l, w⟩
  refine ⟨_, .count rfl, ?_⟩
  rintro ⟨l', w'⟩
  by_cases hsend : bigintOk pp.offset
  · refine ⟨_, .select rfl hsend, ?_⟩
    have hexec : (exec env (.selectProjects u ties pp.offset pp.limit) (l', w')).1 =
        .ok (page pp.offset pp.limit (newest ties (ownedProjects (l'.projects w') u))) := by
      simp only [exec, hsend, bigintOk_limit, Bool.and_self, if_true]
    rw [hexec]
    exact selected_obeys _
  · refine ⟨_, .selectRefused rfl hsend, ?_⟩
    have hexec : (exec env (.selectProjects u ties pp.offset pp.limit) (l', w')).1 =
        .error .dbError := by
      simp [exec, hsend]
    rw [hexec]
    exact rollback_obeys .refused trivial _

theorem listTasks_obeys (pp : PageParams) (filters : TaskFilters) (ties : TieOrder) :
    Obeys (exec env) (PageMove env u (.listTasks pp filters ties))
      (PageFinal (.listTasks pp filters ties)) .start
      ((Request.listTasks pp filters ties).program u) := by
  rintro ⟨l, w⟩
  by_cases hfilters : filters.sendable
  · refine ⟨_, .count rfl, ?_⟩
    have hcount : (exec env (.countTasks u filters) (l, w)).1 =
        .ok ((l.after w).tasksFor env u filters).length := by
      simp only [exec, hfilters, if_true]
      rfl
    rw [hcount]
    rintro ⟨l', w'⟩
    by_cases hsend : bigintOk pp.offset
    · refine ⟨_, .select rfl (Bool.and_eq_true_iff.mpr ⟨hfilters, hsend⟩), ?_⟩
      have hexec : (exec env (.selectTasks u filters ties pp.offset pp.limit) (l', w')).1 =
          .ok (page pp.offset pp.limit (newest ties ((l'.after w').tasksFor env u filters))) := by
        simp only [exec, hfilters, hsend, bigintOk_limit, Bool.and_self, if_true]
        rfl
      rw [hexec]
      exact selected_obeys _
    · refine ⟨_, .selectRefused rfl fun h => hsend (Bool.and_eq_true_iff.mp h).2, ?_⟩
      have hexec : (exec env (.selectTasks u filters ties pp.offset pp.limit) (l', w')).1 =
          .error .dbError := by
        simp [exec, hsend]
      rw [hexec]
      exact rollback_obeys .refused trivial _
  · refine ⟨_, .countRefused rfl fun h => hfilters (Bool.and_eq_true_iff.mp h).1, ?_⟩
    have hcount : (exec env (.countTasks u filters) (l, w)).1 = .error .dbError := by
      simp [exec, hfilters]
    rw [hcount]
    exact rollback_obeys .refused trivial _

theorem page_obeys (r : Request) :
    Obeys (exec env) (PageMove env u r) (PageFinal r) .start (r.program u) := by
  cases r with
  | listProjects pp ties => exact listProjects_obeys pp ties
  | listTasks pp filters ties => exact listTasks_obeys pp filters ties
  | _ => exact obeys_of_stay (fun _ _ => .other rfl) (fun _ h => nomatch h) _

end Obeys

end TaskMgtApp.Work
