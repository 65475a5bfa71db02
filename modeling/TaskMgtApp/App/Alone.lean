import TaskMgtApp.App.Authority
import TaskMgtApp.App.Concurrent

/-!
# One job at a time

The serial model serves a request in one moment. That is what the application does when a
job gets all its turns before the next one begins: the answers are the same, and so are the
accounts and the rows. What the session has begun while it read the account makes no
difference to the endpoint.
-/
namespace TaskMgtApp.App

open TaskMgtApp.Common
open TaskMgtApp.Lib.Program TaskMgtApp.Lib.Program.Prog
open TaskMgtApp.Lib.Interleaving

/-! ## Serving a job at once -/

theorem auth_serve_now (env : Auth.Env) (w : Auth.World) (r : Auth.Request) :
    (Auth.serve env w r).2.now = w.now :=
  run_keeps (f := fun s : Auth.State => s.2.now) (Auth.exec env)
    (fun c s => Auth.exec_now env s c) _ _

theorem work_handle_now (env : Env) (w : Work.World) (user : UUID) (request : Work.HttpRequest) :
    (Work.handle env.work env.pydantic w user request).2.now = w.now := by
  unfold Work.handle
  split
  · rfl
  · exact run_keeps (f := fun s : Work.State => s.2.now) (Work.exec env.work)
      (fun c s => work_exec_now env.work c s.1 s.2) _ _

/-- The call at the instant that the clock shows. -/
def Call.at (c : Call) (w : World) : Call :=
  { c with micros := ⟨w.work.now % 1000000, Nat.mod_lt _ (Nat.succ_pos 999999)⟩ }

/-- What the serial model has of the world. -/
def World.system (w : World) : System := ⟨⟨w.accounts, []⟩, w.work⟩

theorem instant_at (c : Call) (w : World) : (c.at w).instant w.system.accounts = w.work.now := by
  change w.accounts.now * 1000000 + w.work.now % 1000000 = w.work.now
  rw [w.clock, Nat.div_add_mod']

theorem handle_now (env : Env) (c : Call) (w : World) :
    ((c.at w).handle env w.system).2.now = w.work.now := by
  cases h : (c.at w).currentUser env w.system.accounts with
  | error answer => rw [handle_refused h]; rfl
  | ok user =>
    obtain ⟨-, hme⟩ | ⟨request, -, hwork⟩ := handle_work h
    · rw [hme]; rfl
    · rw [hwork, work_handle_now]
      exact instant_at c w

def Answer.outcome : Answer → Except Exc Result
  | .error exc => .error exc
  | answer => .ok (.call answer)

/-- A job served in one moment, by the serial model. -/
def Job.serve (env : Env) (w : World) : Job → Except Exc Result × World
  | .auth r =>
    ((Auth.serve env.auth w.accounts r).1.map .auth,
      ⟨(Auth.serve env.auth w.accounts r).2, w.work,
        (auth_serve_now env.auth w.accounts r).trans w.clock⟩)
  | .call c =>
    (((c.at w).handle env w.system).1.outcome,
      ⟨w.accounts, ((c.at w).handle env w.system).2, by rw [handle_now]; exact w.clock⟩)

/-! ## Running a job alone -/

section Alone
variable {env : Env} {w : World} {α β : Type}

theorem World.eq_of_parts {v w : World} (haccounts : v.accounts = w.accounts)
    (hwork : v.work = w.work) : v = w := by
  cases v
  cases w
  subst haccounts
  subst hwork
  rfl

/-- The transaction of a session may have begun. -/
def Begun (w : Work.World) (l l' : Work.Session) : Prop := l' = l ∨ l' = l.begin w

theorem begin_begin (l : Work.Session) (w : Work.World) : (l.begin w).begin w = l.begin w := rfl

theorem flush_begin (l : Work.Session) (w : Work.World) : (l.begin w).flush w = l.flush w := rfl

/-- A command does the same, whether its transaction has begun or begins with it. -/
theorem exec_begun (env : Work.Env) (c : Work.Cmd) {l l' : Work.Session} {w : Work.World}
    (h : Begun w l l') : (Work.exec env c (l', w)).1 = (Work.exec env c (l, w)).1 ∧
      (Work.exec env c (l', w)).2.2 = (Work.exec env c (l, w)).2.2 ∧
      Begun (Work.exec env c (l, w)).2.2 (Work.exec env c (l, w)).2.1 (Work.exec env c (l', w)).2.1 := by
  rcases h with rfl | rfl
  · exact ⟨rfl, rfl, .inl rfl⟩
  · have hprojects : (l.begin w).projects w = l.projects w := rfl
    have htasks : (l.begin w).tasks w = l.tasks w := rfl
    have hclock : (l.begin w).clock w = l.clock w := rfl
    cases c with
    | datetimeNow => exact ⟨rfl, rfl, .inr rfl⟩
    | assignProject loaded fields => exact ⟨rfl, rfl, .inr rfl⟩
    | assignTask loaded fields => exact ⟨rfl, rfl, .inr rfl⟩
    | selectProjects owner ties offset limit | countTasks owner filters
    | selectTasks owner filters ties offset limit | insertProject id ownerId name description
    | insertTask id projectId fields | refreshProject id | refreshTask id =>
      simp only [Work.exec, hprojects, htasks, hclock, begin_begin]
      split <;> simp [Begun]
    | flush | commit =>
      simp only [Work.exec, flush_begin]
      split <;> simp [Begun]
    | _ => exact ⟨rfl, rfl, .inl rfl⟩

/-- A session that holds nothing commits nothing. -/
theorem commit_nothing {l : Work.Session} {w : Work.World} (env : Work.Env) (hw : l.written = [])
    (hd : l.dirty = []) : Work.exec env .commit (l, w) = (.ok (), .empty, w) := by
  have hbegin : (l.begin w).projects w = w.projects ∧ (l.begin w).tasks w = w.tasks := by
    change l.projects w = w.projects ∧ l.tasks w = w.tasks
    exact ⟨Work.projects_of_clean hw, Work.tasks_of_clean hw⟩
  simp only [Work.exec, Work.flush_clean l w hd, hbegin]

/-- Code of the auth module does what it does there, and may begin the transaction. -/
theorem run_ofAuth (env : Env) (w : World) (p : Auth.AuthM α) :
    ((ofAuth p).run (exec env) (⟨[], .empty⟩, w)).1 = (p.run (Auth.exec env.auth) ([], w.accounts)).1 ∧
      let s := ((ofAuth p).run (exec env) (⟨[], .empty⟩, w)).2
      (s.1.accounts, s.2.accounts) = (p.run (Auth.exec env.auth) ([], w.accounts)).2 ∧
        s.2.work = w.work ∧ Begun w.work .empty s.1.work := by
  let R : Auth.State → State → Prop := fun s s' =>
    (s'.1.accounts, s'.2.accounts) = s ∧ s'.2.work = w.work ∧ Begun w.work .empty s'.1.work
  have hexec : ∀ c s s', R s s' → (exec env (.auth c) s').1 = (Auth.exec env.auth c s).1 ∧
      R (Auth.exec env.auth c s).2 (exec env (.auth c) s').2 := by
    rintro c _ ⟨l, v⟩ ⟨rfl, hwork, hbegun⟩
    refine ⟨rfl, rfl, hwork, ?_⟩
    change Begun w.work .empty (if isStatement c then l.work.begin v.work else l.work)
    dsimp only at hwork hbegun
    rw [hwork]
    split
    · rcases hbegun with hbegun | hbegun
      · exact .inr (by rw [hbegun])
      · exact .inr (by rw [hbegun, begin_begin])
    · exact hbegun
  exact run_via Cmd.auth hexec p ⟨rfl, rfl, .inl rfl⟩

/-- Code of projects and tasks does what it does there, also where the transaction has begun. -/
theorem run_ofWork (env : Env) (w : World) (p : Work.WorkM α) {l : Session}
    (hl : Begun w.work .empty l.work) :
    ((ofWork p).run (exec env) (l, w)).1 = (p.run (Work.exec env.work) (.empty, w.work)).1 ∧
      let s := ((ofWork p).run (exec env) (l, w)).2
      s.2.work = (p.run (Work.exec env.work) (.empty, w.work)).2.2 ∧ s.2.accounts = w.accounts := by
  let R : Work.State → State → Prop := fun s s' =>
    s'.2.work = s.2 ∧ s'.2.accounts = w.accounts ∧ Begun s.2 s.1 s'.1.work
  have hexec : ∀ c s s', R s s' → (exec env (.work c) s').1 = (Work.exec env.work c s).1 ∧
      R (Work.exec env.work c s).2 (exec env (.work c) s').2 := by
    rintro c ⟨l₁, v₁⟩ ⟨l₂, v₂⟩ ⟨hwork, haccounts, hbegun⟩
    dsimp only at hwork haccounts hbegun
    subst hwork
    obtain ⟨hreply, hworld, hnext⟩ := exec_begun env.work c hbegun
    exact ⟨hreply, hworld, haccounts, hnext⟩
  have hstart : R (.empty, w.work) (l, w) := ⟨rfl, rfl, hl⟩
  obtain ⟨hreply, hwork, haccounts, -⟩ := run_via Cmd.work hexec p hstart
  exact ⟨hreply, hwork, haccounts⟩

theorem getDb_ofWork (p : Work.WorkM α) : getDb (ofWork p) = ofWork (Work.getDb p) := by
  simp only [Work.getDb, ofWork, via_catch, via_bind]
  rfl

/-- `get_current_user` only reads. -/
theorem run_getCurrentUser (env : Auth.Env) (w : Auth.World) (token : String) :
    (Auth.getCurrentUser token).run (Auth.exec env) ([], w) = (w.currentUser env token, [], w) := by
  refine Prod.ext rfl (Only.run_state ?_)
  unfold Auth.getCurrentUser
  refine Only.bind (Only.catch ?_ fun e => ?_) fun p => ?_
  · exact only_perform.mpr (Auth.exec_decodeToken ..)
  · cases e <;> trivial
  · split
    · trivial
    · refine Only.bind ?_ fun id => Only.bind (only_perform.mpr rfl) fun found => ?_
      · unfold Auth.uuidOf
        split <;> trivial
      · cases found with
        | none => trivial
        | some user =>
          dsimp only
          split <;> trivial

/-- The body of a session goes on where its first part ends. -/
theorem run_getDb_bind {p : AppM α} {f : α → AppM β} {s s₁ : State} {a : α}
    (h : p.run (exec env) s = (.ok a, s₁)) :
    (getDb (p >>= f)).run (exec env) s = (getDb (f a)).run (exec env) s₁ := by
  simp only [getDb, run_catch, run_bind, h]

/-- An exception rolls the session back. -/
theorem run_getDb_error {p : AppM α} {s s₁ : State} {e : Exc}
    (h : p.run (exec env) s = (.error e, s₁)) :
    (getDb p).run (exec env) s = (.error e, ⟨s₁.1.accounts, .empty⟩, s₁.2) := by
  simp only [getDb, run_catch, run_bind, h]
  rfl

/-- What the body returns may be wrapped before the commit or after it. -/
theorem run_getDb_map (p : AppM α) (f : α → β) (s : State) :
    (getDb (do let a ← p; return f a)).run (exec env) s =
      (((getDb p).run (exec env) s).1.map f, ((getDb p).run (exec env) s).2) := by
  simp only [getDb, run_catch, run_bind]
  rcases p.run (exec env) s with ⟨_ | a, s₁⟩
  · rfl
  · simp only [pure_eq, run_done, run_perform]
    rcases exec env (.work .commit) s₁ with ⟨_ | _, s₂⟩ <;> rfl

/-- `get_current_user` in a call: it reads, and the transaction may have begun. -/
theorem run_currentUser (env : Env) (w : World) (token : String) :
    ∃ l, Begun w.work .empty l ∧ (ofAuth (Auth.getCurrentUser token)).run (exec env) (⟨[], .empty⟩, w) =
      (w.accounts.currentUser env.auth token, ⟨[], l⟩, w) := by
  obtain ⟨hreply, hstate, hwork, hbegun⟩ := run_ofAuth env w (Auth.getCurrentUser token)
  rw [run_getCurrentUser] at hreply hstate
  generalize (ofAuth (Auth.getCurrentUser token)).run (exec env) (⟨[], .empty⟩, w) = out at *
  obtain ⟨reply, ⟨la, lw⟩, v⟩ := out
  obtain ⟨hla, hv⟩ := Prod.mk.inj hstate
  dsimp only at hreply hla hv hwork hbegun
  subst hreply
  subst hla
  obtain rfl := World.eq_of_parts hv hwork
  exact ⟨lw, hbegun, rfl⟩

/-- The endpoint of a call and its commit, for the user that has been found. -/
theorem run_endpoint (env : Env) (w : World) (c : Call) {user : Auth.User} {l : Work.Session}
    (hl : Begun w.work .empty l) (huser : (c.at w).currentUser env w.system.accounts = .ok user) :
    let r := (getDb (c.route.endpoint env user)).run (exec env) (⟨[], l⟩, w)
    let handled := (c.at w).handle env w.system
    r.1.map Result.call = handled.1.outcome ∧ r.2.2.accounts = w.accounts ∧
      r.2.2.work = handled.2 := by
  have hclean : l.written = [] ∧ l.dirty = [] := by
    rcases hl with rfl | rfl <;> exact ⟨rfl, rfl⟩
  cases hroute : c.route with
  | me =>
    have hhandle : (c.at w).handle env w.system = (.user (.ofUser user), w.work) := by
      simp only [Call.handle, huser, show (c.at w).route = .me from hroute]
      rfl
    rw [hhandle]
    simp only [Route.endpoint, getDb, pure_eq, done_ok_bind, perform_bind, call_catch, run_call, exec,
      commit_nothing env.work hclean.1 hclean.2]
    exact ⟨rfl, rfl, rfl⟩
  | work request =>
    have hwork :
        ({ w.system.work with now := (c.at w).instant w.system.accounts } : Work.World) = w.work := by
      rw [instant_at]
      rfl
    rw [handle_request huser hroute, hwork]
    cases hvalid : request.validate env.pydantic with
    | none =>
      simp only [Route.endpoint, Work.handle, hvalid]
      rw [throw_eq, run_getDb_error (run_done ..)]
      exact ⟨rfl, rfl, rfl⟩
    | some r =>
      simp only [Route.endpoint, Work.handle, hvalid]
      rw [run_getDb_map, getDb_ofWork]
      obtain ⟨hreply, hrows, haccounts⟩ :=
        run_ofWork env w (Work.getDb (r.endpoint user.id)) (l := ⟨[], l⟩) hl
      refine ⟨?_, haccounts, hrows⟩
      dsimp only
      rw [hreply]
      change _ = Answer.outcome
        (.ofWork ((r.program user.id).run (Work.exec env.work) (.empty, w.work)).1)
      rw [Work.Request.program]
      cases ((Work.getDb (r.endpoint user.id)).run (Work.exec env.work) (.empty, w.work)).1 <;> rfl

theorem currentUser_at (env : Env) (w : World) (c : Call) :
    (c.at w).currentUser env w.system.accounts = c.currentUser env w.system.accounts := rfl

/-- A call alone is answered as the serial model answers it. -/
theorem run_program (env : Env) (w : World) (c : Call) :
    let r := (c.program env).run (exec env) (⟨[], .empty⟩, w)
    let handled := (c.at w).handle env w.system
    r.1.map Result.call = handled.1.outcome ∧ r.2.2.accounts = w.accounts ∧
      r.2.2.work = handled.2 := by
  by_cases hgarbled : (c.route.takesBody && c.garbled) = true
  · have huser := currentUser_at env w c
    simp only [Call.currentUser, if_pos hgarbled] at huser
    simp only [handle_refused huser, Call.program, if_pos hgarbled]
    exact ⟨rfl, rfl, rfl⟩
  · cases hbearer : env.bearer c.authorization with
    | none =>
      have huser : (c.at w).currentUser env w.system.accounts = .error .notAuthenticated := by
        rw [currentUser_at]
        simp only [Call.currentUser, if_neg hgarbled, hbearer]
      simp only [handle_refused huser, Call.program, if_neg hgarbled, hbearer]
      exact ⟨rfl, rfl, rfl⟩
    | some token =>
      obtain ⟨l, hl, hrun⟩ := run_currentUser env w token
      simp only [Call.program, if_neg hgarbled, hbearer]
      cases hfound : w.accounts.currentUser env.auth token with
      | error exc =>
        have huser : (c.at w).currentUser env w.system.accounts = .error (.error exc) := by
          rw [currentUser_at]
          simp only [Call.currentUser, if_neg hgarbled, hbearer, World.system, hfound]
        rw [hfound] at hrun
        have hbody : (ofAuth (Auth.getCurrentUser token) >>= fun user => c.route.endpoint env user).run
            (exec env) (⟨[], .empty⟩, w) = (.error exc, ⟨[], l⟩, w) := by
          simp only [run_bind, hrun]
        rw [handle_refused huser, run_getDb_error hbody]
        exact ⟨rfl, rfl, rfl⟩
      | ok user =>
        have huser : (c.at w).currentUser env w.system.accounts = .ok user := by
          rw [currentUser_at]
          simp only [Call.currentUser, if_neg hgarbled, hbearer, World.system, hfound]
        rw [hfound] at hrun
        rw [run_getDb_bind hrun]
        exact run_endpoint env w c hl huser

/-- A job that runs with nothing beside it is served as in the serial model. -/
theorem run_job (env : Env) (w : World) (job : Job) :
    let r := (job.program env).run (exec env) (⟨[], .empty⟩, w)
    r.1 = (job.serve env w).1 ∧ r.2.2 = (job.serve env w).2 := by
  cases job with
  | auth r =>
    obtain ⟨hreply, hstate, hwork, -⟩ := run_ofAuth env w (r.program env.auth)
    simp only [Job.program, run_bind]
    generalize (ofAuth (r.program env.auth)).run (exec env) (⟨[], .empty⟩, w) = out at *
    obtain ⟨reply, l, v⟩ := out
    dsimp only at hreply hstate hwork
    have hserve : Auth.serve env.auth w.accounts r = (reply, v.accounts) :=
      Prod.ext hreply.symm (congrArg Prod.snd hstate).symm
    have hanswer : (Job.serve env w (.auth r)).1 = reply.map .auth :=
      congrArg (fun served => served.1.map Result.auth) hserve
    have hworld : v = (Job.serve env w (.auth r)).2 :=
      World.eq_of_parts (congrArg Prod.snd hserve).symm hwork
    rw [hanswer]
    cases reply with
    | error exc => exact ⟨rfl, hworld⟩
    | ok reply => exact ⟨rfl, hworld⟩
  | call c =>
    obtain ⟨hanswer, haccounts, hwork⟩ := run_program env w c
    simp only [Job.program, run_bind]
    generalize (c.program env).run (exec env) (⟨[], .empty⟩, w) = out at *
    obtain ⟨answer, l, v⟩ := out
    cases answer with
    | error exc => exact ⟨hanswer, World.eq_of_parts haccounts hwork⟩
    | ok answer => exact ⟨hanswer, World.eq_of_parts haccounts hwork⟩

end Alone

/-! ## One after another -/

section Plans
variable {ι : Type} [DecidableEq ι] {env : Env} {jobs : ι → Job} {c : Threads ι} {i : ι}

omit [DecidableEq ι] in
/-- A job served at its place, or what happens beside the requests. -/
def serveAct (env : Env) (jobs : ι → Job) (w : World) : Act ι Drift → World
  | .step i => ((jobs i).serve env w).2
  | .drift d => w.drift d

/-- A job alone, given turns enough. -/
theorem exists_run_job (hi : c.threads i = ⟨⟨[], .empty⟩, (jobs i).program env⟩) :
    ∃ n c', (∀ k, n ≤ k → c.run (machine env) (List.replicate k (.step i)) = c') ∧
      c'.world = ((jobs i).serve env c.world).2 ∧ c'.outcome i = some ((jobs i).serve env c.world).1 ∧
      ∀ j, j ≠ i → c'.threads j = c.threads j := by
  obtain ⟨n, c', hrun, hworld, houtcome, hothers⟩ := Config.exists_run_alone (machine env) c i
  rw [hi] at hworld houtcome
  obtain ⟨hanswer, hserved⟩ := run_job env c.world (jobs i)
  exact ⟨n, c', hrun, hworld.trans hserved, houtcome.trans (congrArg some hanswer), hothers⟩

/-- `c'` is what the serial model makes of the plan from `c`. -/
structure Follows (env : Env) (jobs : ι → Job) (c c' : Threads ι) (plan : List (Act ι Drift)) :
    Prop where
  world : c'.world = plan.foldl (serveAct env jobs) c.world
  others : ∀ i, turns i plan = 0 → c'.threads i = c.threads i
  outcomes : ∀ before i after, plan = before ++ .step i :: after →
    c'.outcome i = some ((jobs i).serve env (before.foldl (serveAct env jobs) c.world)).1

theorem Follows.nil : Follows env jobs c c [] where
  world := rfl
  others _ _ := rfl
  outcomes before i after h := by simp at h

theorem Follows.drift {c' : Threads ι} {plan : List (Act ι Drift)} {d : Drift}
    (h : Follows env jobs (c.step (machine env) (.drift d)) c' plan) :
    Follows env jobs c c' (.drift d :: plan) where
  world := h.world
  others := h.others
  outcomes before i after hplan := by
    cases before with
    | nil => cases hplan
    | cons b before =>
      obtain ⟨rfl, htail⟩ := List.cons.inj hplan
      exact h.outcomes before i after htail

/-- The job `i` first, and then a plan without it. -/
theorem Follows.turn {c₁ c' : Threads ι} {plan : List (Act ι Drift)} (h : Follows env jobs c₁ c' plan)
    (hzero : turns i plan = 0) (hworld : c₁.world = ((jobs i).serve env c.world).2)
    (houtcome : c₁.outcome i = some ((jobs i).serve env c.world).1)
    (hothers : ∀ j, j ≠ i → c₁.threads j = c.threads j) :
    Follows env jobs c c' (.step i :: plan) where
  world := by
    rw [h.world, hworld]
    rfl
  others j hj := by
    have hji : j ≠ i := by
      rintro rfl
      rw [turns_step_self] at hj
      omega
    rw [turns_step_of_ne (Ne.symm hji)] at hj
    rw [h.others j hj, hothers j hji]
  outcomes before j after hplan := by
    cases before with
    | nil =>
      obtain ⟨hij, -⟩ := List.cons.inj hplan
      obtain rfl := Act.step.inj hij
      rw [Config.outcome, h.others i hzero]
      exact houtcome
    | cons b before =>
      obtain ⟨rfl, htail⟩ := List.cons.inj hplan
      rw [h.outcomes before j after htail, hworld]
      rfl

/-- The plan from any state in which its jobs have not begun. -/
theorem exists_run_plan (plan : List (Act ι Drift)) (hplan : ∀ i, turns i plan ≤ 1)
    (hrest : ∀ i, 0 < turns i plan → c.threads i = ⟨⟨[], .empty⟩, (jobs i).program env⟩) :
    ∃ n, ∀ k, n ≤ k → Follows env jobs c (c.run (machine env) (plan.flatMap (Act.times k))) plan := by
  induction plan generalizing c with
  | nil => exact ⟨0, fun k _ => .nil⟩
  | cons a plan ih =>
    cases a with
    | drift d =>
      obtain ⟨n, hn⟩ := ih (c := c.step (machine env) (.drift d)) hplan hrest
      exact ⟨n, fun k hk => (hn k hk).drift⟩
    | step i =>
      have honce := hplan i
      rw [turns_step_self] at honce
      have hzero : turns i plan = 0 := by omega
      obtain ⟨n₁, c₁, hrun, hworld, houtcome, hothers⟩ :=
        exists_run_job (hrest i (by rw [turns_step_self]; omega))
      -- the other jobs of the plan have not begun
      have hrest₁ : ∀ j, 0 < turns j plan → c₁.threads j = ⟨⟨[], .empty⟩, (jobs j).program env⟩ := by
        intro j hj
        have hji : j ≠ i := by
          rintro rfl
          omega
        rw [hothers j hji]
        exact hrest j (by rw [turns_step_of_ne (Ne.symm hji)]; exact hj)
      have hplan₁ : ∀ j, turns j plan ≤ 1 := by
        intro j
        by_cases hji : j = i
        · subst hji
          omega
        · exact turns_step_of_ne (Ne.symm hji) plan ▸ hplan j
      obtain ⟨n₂, hn⟩ := ih hplan₁ hrest₁
      refine ⟨max n₁ n₂, fun k hk => ?_⟩
      rw [List.flatMap_cons, Act.times, Config.run_append, hrun k (le_trans (le_max_left ..) hk)]
      exact (hn k (le_trans (le_max_right ..) hk)).turn hzero hworld houtcome hothers

/-- Requests one at a time, with administration and time between them: given turns enough, the
application ends in the world of the serial model, and every request is answered as there. -/
theorem one_at_a_time_is_serial (env : Env) (w : World) (jobs : ι → Job) (plan : List (Act ι Drift))
    (hplan : ∀ i, turns i plan ≤ 1) :
    ∃ n, ∀ k, n ≤ k →
      let c := (beside env w jobs).run (machine env) (plan.flatMap (Act.times k))
      c.world = plan.foldl (serveAct env jobs) w ∧
        ∀ before i after, plan = before ++ .step i :: after →
          c.outcome i = some ((jobs i).serve env (before.foldl (serveAct env jobs) w)).1 := by
  obtain ⟨n, hn⟩ := exists_run_plan (c := beside env w jobs) plan hplan (fun _ _ => rfl)
  exact ⟨n, fun k hk => ⟨(hn k hk).world, (hn k hk).outcomes⟩⟩

end Plans

/-! ### Ada creates two projects with the access token of her login -/

/-- Ada has logged in. -/
def adaIn : World where
  accounts := { Auth.adaAlone with now := 1060, issued := [Auth.adaToken] }
  work := ⟨1060000000, [], []⟩
  clock := by decide

/-- The call `i` creates a project. -/
def adaCalls (i : Bool) : Job :=
  .call ⟨some ("bearer " ++ Auth.adaToken), .work (.postProjects
    (some (.object [("name", .string "Thesis")])) (plainUuid .one (cond i .one .zero))), false,
    Fin.last _⟩

/-- She is deactivated between the two. -/
theorem one_at_a_time_is_serial_ada :
    let plan : List (Act Bool Drift) := [.step false, .drift (.setActive Auth.ada.id false), .step true]
    ∃ n, ∀ k, n ≤ k →
      let c := (beside plainEnv adaIn adaCalls).run (machine plainEnv) (plan.flatMap (Act.times k))
      c.world = plan.foldl (serveAct plainEnv adaCalls) adaIn ∧
        ∀ before i after, plan = before ++ .step i :: after →
          c.outcome i = some
            ((adaCalls i).serve plainEnv (before.foldl (serveAct plainEnv adaCalls) adaIn)).1 :=
  one_at_a_time_is_serial plainEnv adaIn adaCalls _ (by decide)

end TaskMgtApp.App
