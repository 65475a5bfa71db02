import TaskMgtApp.App.Model
import TaskMgtApp.Auth.Concurrent
import TaskMgtApp.Lib.Parts
import TaskMgtApp.Work.Confinement

/-!
# The application, one command at a time

Auth requests and calls side by side, over one database, one store and one clock. In a call
`get_current_user` and the endpoint share one session, so the SELECT on `users` opens the
transaction of the call, and what has been checked there may have changed when the endpoint
commits. Administration deactivates, reactivates and deletes accounts in between.
-/
namespace TaskMgtApp.App

open TaskMgtApp.Common
open TaskMgtApp.Lib.Program TaskMgtApp.Lib.Program.Prog
open TaskMgtApp.Lib.Interleaving

/-! ## Commands -/

inductive Cmd where
  | auth (c : Auth.Cmd)
  | work (c : Work.Cmd)

/-- The value a command returns. -/
abbrev Cmd.Val : Cmd → Type
  | .auth c => c.Val
  | .work c => c.Val

/-- A piece of the application. -/
abbrev AppM := Prog Cmd.Val Exc

/-- An `AsyncSession`: what it has of `users`, and what it has of projects and tasks. No request
writes both. -/
structure Session where
  accounts : Auth.Session
  work : Work.Session

/-- The clock counts microseconds; the accounts read the seconds of it. -/
structure World where
  accounts : Auth.World
  work : Work.World
  clock : accounts.now = work.now / 1000000

abbrev State := Session × World

/-- Whether the command is a statement on `users`, which opens the transaction of its session. -/
def isStatement : Auth.Cmd → Bool
  | .getById _ | .getByEmail _ | .add _ _ _ _ => true
  | _ => false

theorem work_exec_now (env : Work.Env) (c : Work.Cmd) (l : Work.Session) (w : Work.World) :
    (Work.exec env c (l, w)).2.2.now = w.now := by
  by_cases hc : c = .commit
  · subst hc
    simp only [Work.exec]
    split <;> rfl
  · rw [Work.exec_world hc]

/-- One atomic command of a session. -/
def exec (env : Env) : (c : Cmd) → State → Except Exc c.Val × State
  | .auth c, (l, w) =>
    let r := Auth.exec env.auth c (l.accounts, w.accounts)
    (r.1, ⟨r.2.1, if isStatement c then l.work.begin w.work else l.work⟩,
      ⟨r.2.2, w.work, (Auth.exec_now env.auth (l.accounts, w.accounts) c).trans w.clock⟩)
  | .work c, (l, w) =>
    let r := Work.exec env.work c (l.work, w.work)
    (r.1, ⟨l.accounts, r.2.1⟩,
      ⟨w.accounts, r.2.2, by rw [work_exec_now]; exact w.clock⟩)

/-- What happens beside the requests. -/
inductive Drift where
  | wait (micros : Nat)
  | setActive (id : UUID) (isActive : Bool)
  | softDelete (id : UUID)

def World.drift (w : World) : Drift → World
  | .wait micros =>
    { accounts := { w.accounts with now := (w.work.now + micros) / 1000000 }
      work := { w.work with now := w.work.now + micros }
      clock := rfl }
  | .setActive id isActive => { w with accounts := w.accounts.setActive id isActive, clock := w.clock }
  | .softDelete id => { w with accounts := w.accounts.softDelete id, clock := w.clock }

def machine (env : Env) : Machine Cmd.Val Exc Session World Drift where
  exec := exec env
  drift d w := w.drift d

/-! ## Requests -/

/-- Code of the auth module. -/
def ofAuth {α : Type} (p : Auth.AuthM α) : AppM α := p.via Cmd.auth

/-- Code of projects and tasks. -/
def ofWork {α : Type} (p : Work.WorkM α) : AppM α := p.via Cmd.work

/-- `get_db` around the dependencies and the endpoint of a call. -/
def getDb {α : Type} (body : AppM α) : AppM α :=
  tryCatch
    (do
      let result ← body
      let _ ← perform (Cmd.work .commit)
      return result)
    fun exc => do
      let _ ← perform (Cmd.work .rollback)
      throw exc

/-- What a request is answered. -/
inductive Result where
  | auth (reply : Auth.Reply)
  | call (answer : Answer)

section Programs
variable (env : Env)

/-- An endpoint behind `get_current_user`. -/
def Route.endpoint (user : Auth.User) : Route → AppM Answer
  | .me => return .user (.ofUser user)
  | .work request =>
    match request.validate env.pydantic with
    | none => throw .requestValidationError
    | some r => do
      let reply ← ofWork (r.endpoint user.id)
      return .reply reply

/-- A call from its arrival to its commit. The microsecond that a call brings along is for
the serial model; here the clock has it. -/
def Call.program (c : Call) : AppM Answer :=
  if c.route.takesBody && c.garbled then throw .requestValidationError
  else
    match env.bearer c.authorization with
    | none => return .notAuthenticated
    | some token => getDb do
      let user ← ofAuth (Auth.getCurrentUser token)
      c.route.endpoint env user

/-- What a client sends: a request to an auth route, or a call. -/
inductive Job where
  | auth (r : Auth.Request)
  | call (c : Call)

def Job.program : Job → AppM Result
  | .auth r => do
    let reply ← ofAuth (r.program env.auth)
    return .auth reply
  | .call c => do
    let answer ← c.program env
    return .call answer

end Programs

abbrev Threads (ι : Type) := Config Cmd.Val Exc Result Session World ι

/-- Every request before its first command. -/
def beside {ι : Type} (env : Env) (w : World) (jobs : ι → Job) : Threads ι where
  world := w
  threads i := ⟨⟨[], .empty⟩, (jobs i).program env⟩
  log := []

/-- The request for projects or tasks that a call makes, if it fits its schema. -/
def Job.request? (env : Env) : Job → Option Work.Request
  | .call ⟨_, .work request, _, _⟩ => request.validate env.pydantic
  | _ => none

/-- The draws of a token pair. -/
def Job.draws : Job → Option Auth.IssueDraws
  | .auth r => r.draws
  | .call _ => none

end TaskMgtApp.App
