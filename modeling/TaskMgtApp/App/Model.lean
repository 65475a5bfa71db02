import TaskMgtApp.Auth.AccessLifetime
import TaskMgtApp.Auth.Http
import TaskMgtApp.Work.Tenants

/-!
# The application

Accounts, and the projects and tasks behind them. Every endpoint for projects and tasks, and
`GET /auth/me`, depends on `get_current_user`: FastAPI calls it before it looks at the path,
the query and the body, and what it raises is the answer. Only a body that is no JSON is
refused before that.

The accounts move as in `Auth.Trace`; a call does not touch them. One clock drives both: the
accounts read its seconds, the statements of a call its microseconds.
-/
namespace TaskMgtApp.App

open TaskMgtApp.Common

/-- The libraries. -/
structure Env where
  auth : Auth.Env
  work : Work.Env
  pydantic : Work.Pydantic
  /-- `HTTPBearer`: the credentials in an `Authorization` header, unless it refuses the header. -/
  bearer : Option String → Option String

/-- The endpoints that depend on `get_current_user`. -/
inductive Route where
  | me
  | work (request : Work.HttpRequest)

/-- Whether the endpoint has a body. -/
def Route.takesBody : Route → Bool
  | .work (.postProjects _ _) | .work (.patchProject _ _) => true
  | .work (.postTasks _ _) | .work (.patchTask _ _) => true
  | _ => false

structure Call where
  authorization : Option String
  route : Route
  /-- Whether what was sent as the body is no JSON. -/
  garbled : Bool
  /-- The microsecond within the second. -/
  micros : Fin 1000000

inductive Answer where
  /-- 403, of `HTTPBearer`. -/
  | notAuthenticated
  | user (user : Auth.UserRead)
  | reply (reply : Work.Reply)
  | error (exc : Exc)
  deriving DecidableEq

structure System where
  accounts : Auth.Trace
  work : Work.World

/-- The user of a call, or the answer in place of one. -/
def Call.currentUser (env : Env) (accounts : Auth.Trace) (c : Call) : Except Answer Auth.User :=
  if c.route.takesBody && c.garbled then .error (.error .requestValidationError)
  else
    match env.bearer c.authorization with
    | none => .error .notAuthenticated
    | some token =>
      match accounts.world.currentUser env.auth token with
      | .error exc => .error (.error exc)
      | .ok user => .ok user

/-- The instant of a call, in microseconds. -/
def Call.instant (accounts : Auth.Trace) (c : Call) : Nat :=
  accounts.world.now * 1000000 + c.micros

/-- One call, from the state it meets. -/
def Call.handle (env : Env) (s : System) (c : Call) : Answer × Work.World :=
  match c.currentUser env s.accounts with
  | .error answer => (answer, s.work)
  | .ok user =>
    match c.route with
    | .me => (.user (.ofUser user), s.work)
    | .work request =>
      let call : Work.HttpCall := ⟨user.id, c.instant s.accounts, request⟩
      match call.handle env.work env.pydantic s.work with
      | (.ok reply, work) => (.reply reply, work)
      | (.error exc, work) => (.error exc, work)

/-- What can happen next. -/
inductive Action where
  /-- Time passes, an auth route is served, or an account is deactivated or deleted. -/
  | accounts (action : Auth.Action)
  | call (c : Call)

/-- What an action does to the accounts. -/
def Action.auth : Action → List Auth.Action
  | .accounts action => [action]
  | .call _ => []

def Route.projectDraw : Route → Option UUID
  | .me => none
  | .work request => request.projectDraw

def Route.taskDraw : Route → Option UUID
  | .me => none
  | .work request => request.taskDraw

def Action.projectDraw : Action → Option UUID
  | .accounts _ => none
  | .call c => c.route.projectDraw

def Action.taskDraw : Action → Option UUID
  | .accounts _ => none
  | .call c => c.route.taskDraw

namespace System

/-- The beginning at second `now`, with the accounts `users` and the rows of `work`. -/
def start (now : Nat) (users : List Auth.User) (work : Work.World) : System :=
  ⟨.start now users, work⟩

def step (env : Env) (s : System) : Action → System
  | .accounts action => { s with accounts := s.accounts.step env.auth action }
  | .call c => { s with work := (c.handle env s).2 }

def after (env : Env) (s : System) (actions : List Action) : System := actions.foldl (step env) s

@[simp] theorem after_nil (env : Env) (s : System) : s.after env [] = s := rfl
@[simp] theorem after_cons (env : Env) (s : System) (a : Action) (as : List Action) :
    s.after env (a :: as) = (s.step env a).after env as := rfl
theorem after_append (env : Env) (s : System) (as bs : List Action) :
    s.after env (as ++ bs) = (s.after env as).after env bs := List.foldl_append ..

/-- The accounts do not depend on the calls. -/
theorem accounts_after (env : Env) (s : System) (actions : List Action) :
    (s.after env actions).accounts = s.accounts.after env.auth (actions.flatMap Action.auth) := by
  induction actions generalizing s with
  | nil => rfl
  | cons a as ih =>
    rw [after_cons, ih, List.flatMap_cons]
    cases a with
    | accounts action => rfl
    | call c => rfl

end System

/-- The rows of one user: the projects, and the tasks under them, deleted or not. -/
def rowsOf (w : Work.World) (user : UUID) : List Work.Project × List Work.Task :=
  ((w.view user).projects, (w.view user).tasks)

section Calls
variable {env : Env} {s : System} {c : Call} {user : Auth.User}

/-- Whom a call acts for has shown a token in time, and is active. -/
theorem currentUser_ok (h : c.currentUser env s.accounts = .ok user) :
    ∃ token, env.bearer c.authorization = some token ∧
      s.accounts.world.currentUser env.auth token = .ok user := by
  unfold Call.currentUser at h
  split at h
  · cases h
  · cases htoken : env.bearer c.authorization with
    | none =>
      rw [htoken] at h
      cases h
    | some token =>
      rw [htoken] at h
      refine ⟨token, rfl, ?_⟩
      cases huser : s.accounts.world.currentUser env.auth token with
      | error exc =>
        simp only [huser] at h
        cases h
      | ok found =>
        simp only [huser, Except.ok.injEq] at h
        rw [h]

theorem handle_refused {answer : Answer} (h : c.currentUser env s.accounts = .error answer) :
    c.handle env s = (answer, s.work) := by
  simp only [Call.handle, h]

/-- The answer to a request for projects or tasks. -/
def Answer.ofWork : Except Exc Work.Reply → Answer
  | .ok result => .reply result
  | .error exc => .error exc

/-- A call of a user for projects or tasks is the request of that user at that instant. -/
theorem handle_request {request : Work.HttpRequest} (h : c.currentUser env s.accounts = .ok user)
    (hroute : c.route = .work request) : c.handle env s =
      (.ofWork (Work.handle env.work env.pydantic { s.work with now := c.instant s.accounts }
          user.id request).1,
        (Work.handle env.work env.pydantic { s.work with now := c.instant s.accounts }
          user.id request).2) := by
  simp only [Call.handle, h, hroute, Work.HttpCall.handle]
  split <;> rename_i hhandle <;> rw [hhandle] <;> rfl

/-- A call of a user does to the rows what the request does, or nothing. -/
theorem handle_work (h : c.currentUser env s.accounts = .ok user) :
    (c.route = .me ∧ c.handle env s = (.user (.ofUser user), s.work)) ∨
      ∃ request, c.route = .work request ∧ (c.handle env s).2 =
        (Work.handle env.work env.pydantic { s.work with now := c.instant s.accounts }
          user.id request).2 := by
  cases hroute : c.route with
  | me => exact .inl ⟨rfl, by simp only [Call.handle, h, hroute]⟩
  | work request => exact .inr ⟨request, rfl, congrArg Prod.snd (handle_request h hroute)⟩

theorem handle_valid (hvalid : s.work.Valid) : (c.handle env s).2.Valid := by
  cases h : c.currentUser env s.accounts with
  | error answer =>
    rw [handle_refused h]
    exact hvalid
  | ok user =>
    obtain ⟨-, hme⟩ | ⟨request, -, hwork⟩ := handle_work h
    · rw [hme]
      exact hvalid
    · rw [hwork]
      exact Work.handle_valid hvalid.at

/-- A call leaves the rows of everybody else. -/
theorem handle_rowsOf (hvalid : s.work.Valid) {u : UUID}
    (hne : ∀ user, c.currentUser env s.accounts = .ok user → user.id ≠ u) :
    rowsOf (c.handle env s).2 u = rowsOf s.work u := by
  cases h : c.currentUser env s.accounts with
  | error answer => rw [handle_refused h]
  | ok user =>
    obtain ⟨-, hme⟩ | ⟨request, -, hwork⟩ := handle_work h
    · rw [hme]
    · have hnow : ({ s.work with now := c.instant s.accounts } : Work.World).Valid := hvalid.at
      rw [hwork, rowsOf, Work.handle_view hnow (hne user h)]
      rfl

theorem step_valid (hvalid : s.work.Valid) (a : Action) : (s.step env a).work.Valid := by
  cases a with
  | accounts action => exact hvalid
  | call c => exact handle_valid hvalid

theorem after_valid (hvalid : s.work.Valid) (actions : List Action) :
    (s.after env actions).work.Valid := by
  induction actions generalizing s with
  | nil => exact hvalid
  | cons a as ih => exact ih (step_valid hvalid a)

end Calls

end TaskMgtApp.App
