import TaskMgtApp.App.Origins

/-!
# What a job does, by what it has heard

A call reads its token and its account first, and goes on with projects and tasks as the
user it has found. An auth request goes by what the store and the table have told it. So in
every run, whatever is done between two commands of a request, every credential has an
origin.
-/
namespace TaskMgtApp.App

open TaskMgtApp.Common
open TaskMgtApp.Lib.Program TaskMgtApp.Lib.Program.Prog
open TaskMgtApp.Lib.Interleaving TaskMgtApp.Lib.Warrant
open TaskMgtApp.Auth (User Claims)

/-! ## The moves of a job -/

/-- What the call has heard makes it act for the user: an access token, and the account that the
token names, which was active. -/
structure ActsAs (env : Env) (h : Hearing) (c : Call) (user : User) : Prop where
  account : ∃ token p u, env.bearer c.authorization = some token ∧ h.Told (.decodeToken token) p ∧
    p.type = .access ∧ p.sub = u.str ∧ h.Told (.getById u) (some user)
  active : user.isActive = true

/-- How far a job has come, with what it has heard of the accounts. -/
inductive Stage where
  /-- It has issued no statement on projects or tasks. -/
  | accounts (h : Hearing)
  /-- It goes on for the user. -/
  | acting (h : Hearing) (user : User) (φ : Work.OwnPhase)

def Stage.heard : Stage → Hearing
  | accounts h | acting h _ _ => h

/-- The moves of a job. -/
inductive StageMove (env : Env) (job : Job) : Stage → Cmd → State → Stage → Prop
  | hear {h : Hearing} {cmd : Auth.Cmd} {s : State} (hmay : job.May env h cmd) :
      StageMove env job (.accounts h) (.auth cmd) s
        (.accounts (⟨cmd, (Auth.exec env.auth cmd (s.1.accounts, s.2.accounts)).1⟩ :: h))
  | act {h : Hearing} {c : Call} {r : Work.Request} {user : User} {φ : Work.OwnPhase} {cmd : Work.Cmd}
      {s : State} (hjob : job = .call c) (hr : job.request? env = some r) (hacts : ActsAs env h c user)
      (hm : Work.OwnMove user.id r .start cmd (s.1.work, s.2.work) φ) :
      StageMove env job (.accounts h) (.work cmd) s (.acting h user φ)
  | work {h : Hearing} {r : Work.Request} {user : User} {φ φ' : Work.OwnPhase} {cmd : Work.Cmd}
      {s : State} (hr : job.request? env = some r)
      (hm : Work.OwnMove user.id r φ cmd (s.1.work, s.2.work) φ') :
      StageMove env job (.acting h user φ) (.work cmd) s (.acting h user φ')
  | leave {h : Hearing} {cmd : Work.Cmd} {s : State} (hcmd : cmd = .commit ∨ cmd = .rollback) :
      StageMove env job (.accounts h) (.work cmd) s (.accounts h)

/-- Where the body of a call may end. -/
def BodyEnd {α : Type} (env : Env) (job : Job) : Stage → Except Exc α → Prop
  | .accounts _, _ => True
  | .acting _ _ φ, result => ∃ r, job.request? env = some r ∧ Work.OwnOpen r φ result

/-- Where a call may still roll back. -/
def Stage.MayRollBack (env : Env) (job : Job) : Stage → Prop
  | accounts _ => True
  | acting _ _ φ => (∃ r, job.request? env = some r) ∧ φ.isOpen

section Programs
variable {env : Env} {job : Job} {st : Stage} {h : Hearing} {user : User} {c : Call}

/-- The part of the state that is about accounts. -/
def accountsPart (s : State) : Auth.State := (s.1.accounts, s.2.accounts)

/-- The part of the state that is about projects and tasks. -/
def workPart (s : State) : Work.State := (s.1.work, s.2.work)

/-- What a program of the auth module is warranted to do, it does among the accounts. -/
theorem stage_ofAuth {α : Type} {P : Hearing → α → Prop} {p : Auth.AuthM α}
    (hp : Warranted (Auth.exec env.auth) (fun h cmd => job.May env h cmd) P h p) :
    Obeys (exec env) (StageMove env job)
      (fun st result => ∃ h, st = .accounts h ∧ ∀ a, result = .ok a → P h a) (.accounts h) (ofAuth p) := by
  refine Obeys.via accountsPart Stage.accounts (fun c s => rfl) ?_ (fun h r hr => ⟨h, rfl, hr⟩) hp
  rintro h cmd s _ ⟨hmay, rfl⟩
  exact .hear hmay

/-- The statements of an endpoint, once the call acts for the user. -/
theorem stage_ofWork {α : Type} {r : Work.Request} {p : Work.WorkM α} (hr : job.request? env = some r)
    (hp : Obeys (Work.exec env.work) (Work.OwnMove user.id r) (Work.OwnOpen r) .start p) :
    Obeys (exec env) (StageMove env job) (BodyEnd env job) (.acting h user .start) (ofWork p) := by
  refine Obeys.via workPart (Stage.acting h user) (fun c s => rfl) ?_ ?_ hp
  · exact fun φ cmd s φ' hm => .work hr hm
  · exact fun φ result hend => ⟨r, hr, hend⟩

/-- A call that may act for the user does so with its first statement. -/
theorem stage_acts {α : Type} {p : AppM α} (hjob : job = .call c) (hacts : ActsAs env h c user)
    (hp : Obeys (exec env) (StageMove env job) (BodyEnd env job) (.acting h user .start) p) :
    Obeys (exec env) (StageMove env job) (BodyEnd env job) (.accounts h) p := by
  cases p with
  | done result => trivial
  | call cmd k =>
    intro s
    obtain ⟨st, hm, hk⟩ := hp s
    cases hm with
    | work hr hm => exact ⟨_, .act hjob hr hacts hm, hk⟩

theorem warranted_currentUser {token : String} (hbearer : env.bearer c.authorization = some token) :
    Warranted (Auth.exec env.auth) (fun h cmd => (Job.call c).May env h cmd)
      (fun h user => ActsAs env h c user) [] (Auth.getCurrentUser token) := by
  refine Warranted.bind (P := fun h p => h.Told (.decodeToken token) p) ?_ fun h p _ hp => ?_
  · refine Warranted.catch ?_ fun h e _ => ?_
    · refine warranted_call ⟨token, hbearer, .inl rfl⟩ fun reply => ?_
      cases reply with
      | ok p => exact warranted_ok Hearing.Told.head
      | error e => exact warranted_error e
    · cases e <;> exact warranted_error _
  · split
    · exact warranted_error _
    · rename_i htype
      have htype := not_not.mp htype
      refine (Auth.warranted_uuidOf p.sub).bind fun h' u _ hu => ?_
      obtain ⟨rfl, hsub⟩ := hu
      refine warranted_perform ⟨token, hbearer, .inr ⟨p, u, hp, htype, hsub, rfl⟩⟩ fun found => ?_
      cases found with
      | none => exact warranted_error _
      | some user =>
        dsimp only
        split
        · exact warranted_error _
        · rename_i hactive
          have hacts : ActsAs env (⟨.getById u, .ok (some user)⟩ :: h') c user := by
            refine ⟨⟨token, p, u, hbearer, hp.later, htype, hsub, .head⟩, ?_⟩
            simpa using hactive
          exact warranted_ok (P := fun h user => ActsAs env h c user) hacts

/-- The endpoint, for the user that the call may act for. -/
theorem stage_endpoint (hjob : job = .call c) (hacts : ActsAs env h c user) :
    Obeys (exec env) (StageMove env job) (BodyEnd env job) (.accounts h) (c.route.endpoint env user) := by
  cases hroute : c.route with
  | me => trivial
  | work request =>
    simp only [Route.endpoint]
    split
    · trivial
    · rename_i r hvalid
      have hr : job.request? env = some r := by
        obtain ⟨authorization, route, garbled, micros⟩ := c
        subst hjob
        subst hroute
        exact hvalid
      refine stage_acts hjob hacts ?_
      refine Obeys.bind (stage_ofWork hr (Work.own_endpoint r)) ?_ ?_
      · intro st reply hend
        cases st with
        | accounts h => trivial
        | acting h user φ => exact hend
      · intro st e hend
        cases st with
        | accounts h => trivial
        | acting h user φ => exact hend

/-- The commit of a call, or its rollback. -/
theorem stage_getDb {α : Type} {body : AppM α}
    (hbody : Obeys (exec env) (StageMove env job) (BodyEnd env job) st body) :
    Obeys (exec env) (StageMove env job) (fun _ _ => True) st (getDb body) := by
  unfold getDb
  refine Obeys.catch (F := fun st result => ∀ e, result = .error e → st.MayRollBack env job) ?_
    (fun _ _ _ => trivial) ?_
  · refine hbody.bind ?_ fun st e hend _ _ => ?_
    · rintro st a hend ⟨l, w⟩
      cases st with
      | accounts h =>
        refine ⟨_, .leave (.inl rfl), ?_⟩
        change Obeys _ _ _ _ ((done (Work.exec env.work .commit (l.work, w.work)).1 : AppM Unit) >>= _)
        cases (Work.exec env.work .commit (l.work, w.work)).1 with
        | ok _ => exact fun _ _ => trivial
        | error _ => exact fun _ _ => trivial
      | acting h user φ =>
        obtain ⟨r, hr, hopen, hcommit⟩ := hend
        cases hl : l.work.flush w.work with
        | none =>
          refine ⟨.acting h user φ, .work hr (.refuse hopen hl), ?_⟩
          simp only [exec, Work.exec, hl]
          exact fun _ _ => ⟨⟨r, hr⟩, hopen⟩
        | some l' =>
          refine ⟨.acting h user .committed, .work hr (.commit hopen hcommit hl), ?_⟩
          simp only [exec, Work.exec, hl]
          exact fun e he => by cases he
    · cases st with
      | accounts h => trivial
      | acting h user φ =>
        obtain ⟨r, hr, hopen⟩ := hend
        exact ⟨⟨r, hr⟩, hopen⟩
  · intro st e hend s
    cases st with
    | accounts h => exact ⟨_, .leave (.inr rfl), trivial⟩
    | acting h user φ =>
      obtain ⟨⟨r, hr⟩, hopen⟩ := hend e rfl
      exact ⟨_, .work hr (.rollback hopen), trivial⟩

theorem stage_call : Obeys (exec env) (StageMove env (.call c)) (fun _ _ => True) (.accounts [])
    (c.program env) := by
  unfold Call.program
  split
  · trivial
  · split
    · trivial
    · rename_i token hbearer
      refine stage_getDb ((stage_ofAuth (warranted_currentUser hbearer)).bind ?_ ?_)
      · intro st user hend
        obtain ⟨h, rfl, hacts⟩ := hend
        exact stage_endpoint rfl (hacts user rfl)
      · intro st e hend
        obtain ⟨h, rfl, -⟩ := hend
        trivial

/-- Every job makes these moves. -/
theorem job_obeys (env : Env) (job : Job) :
    Obeys (exec env) (StageMove env job) (fun _ _ => True) (.accounts []) (job.program env) := by
  cases job with
  | auth r =>
    exact (stage_ofAuth (Auth.program_abides env.auth r)).bind (fun _ _ _ => trivial) fun _ _ _ => trivial
  | call c => exact stage_call.bind (fun _ _ _ => trivial) fun _ _ _ => trivial

end Programs

/-! ## The accounts in every run -/

section Accounts
variable {ι : Type} [DecidableEq ι] {env : Env} {w : World} {jobs : ι → Job} {φ : ι → Stage}
  {c : Threads ι} {i : ι} {st st' : Stage} {s : State} {job : Job}

/-- The reply to a command on accounts. -/
def toAuth : ((c : Cmd) × Except Exc c.Val) → Option ((c : Auth.Cmd) × Except Exc c.Val)
  | ⟨.auth c, reply⟩ => some ⟨c, reply⟩
  | ⟨.work _, _⟩ => none

/-- What each job has heard of the accounts. -/
def told (c : Threads ι) : ι → Hearing := heard toAuth c.log

theorem told_issue_auth (cmd : Auth.Cmd) (k : Except Exc cmd.Val → AppM Result) :
    told (c.issue (machine env) i (.auth cmd) k) =
      hearing env (told c) i cmd (c.threads i).locals.accounts c.world.accounts :=
  heard_cons rfl

theorem told_issue_work (cmd : Work.Cmd) (k : Except Exc cmd.Val → AppM Result) :
    told (c.issue (machine env) i (.work cmd) k) = told c :=
  heard_cons_of_none rfl

/-- A command on accounts is one that the job may issue, and leaves it there. -/
theorem StageMove.auth_inv {cmd : Auth.Cmd} (hm : StageMove env job st (.auth cmd) s st') :
    job.May env st.heard cmd ∧ (∃ h, st = .accounts h) ∧
      st' = .accounts (⟨cmd, (Auth.exec env.auth cmd (s.1.accounts, s.2.accounts)).1⟩ :: st.heard) := by
  cases hm with
  | hear hmay => exact ⟨hmay, ⟨_, rfl⟩, rfl⟩

theorem StageMove.heard_work {cmd : Work.Cmd} (hm : StageMove env job st (.work cmd) s st') :
    st'.heard = st.heard := by
  cases hm <;> rfl

/-- The accounts, the sessions and what the jobs have heard: all of it has an origin. -/
structure Traced (env : Env) (w : World) (jobs : ι → Job) (φ : ι → Stage) (c : Threads ι) : Prop where
  heard : ∀ i, (φ i).heard = told c i
  accounts : Grounded env w.accounts jobs (told c) c.world.accounts
  writes : ∀ i, ∀ write ∈ (c.threads i).locals.accounts, WriteFrom env w.accounts jobs (told c) write
  hears : Hears env w.accounts jobs (told c)

theorem traced_beside (env : Env) (w : World) (jobs : ι → Job) :
    Traced env w jobs (fun _ => .accounts []) (beside env w jobs) where
  heard _ := rfl
  accounts := ⟨fun _ h => (Born.stored h).vouched, fun _ _ h => .stored h, fun _ h => .stored h⟩
  writes _ write hw := by cases hw
  hears := by constructor <;> (intros; rename_i h; cases h)

omit [DecidableEq ι] in
theorem Grounded.drift {told : ι → Hearing} {v : World}
    (h : Grounded env w.accounts jobs told v.accounts) (d : Drift) :
    Grounded env w.accounts jobs told (v.drift d).accounts := by
  cases d with
  | wait micros =>
    have hle : v.accounts.now ≤ (v.work.now + micros) / 1000000 := by
      rw [v.clock]
      exact Nat.div_le_div_right (Nat.le_add_right ..)
    obtain ⟨n, hn⟩ := Nat.exists_eq_add_of_le hle
    refine ⟨h.rows, fun key s ht => h.texts key s ?_, h.sent⟩
    simp only [World.drift, hn] at ht
    exact Auth.World.text_of_later ht
  | setActive id isActive =>
    refine ⟨fun row hrow => ?_, h.texts, h.sent⟩
    obtain ⟨row₀, hrow₀, rfl⟩ := List.mem_map.mp hrow
    have hv := h.rows row₀ hrow₀
    split
    · exact ⟨hv.born, hv.password, hv.verified⟩
    · exact hv
  | softDelete id =>
    refine ⟨fun row hrow => ?_, h.texts, h.sent⟩
    obtain ⟨row₀, hrow₀, rfl⟩ := List.mem_map.mp hrow
    have hv := h.rows row₀ hrow₀
    split
    · exact ⟨hv.born, hv.password, hv.verified⟩
    · exact hv

theorem Traced.drift (h : Traced env w jobs φ c) (d : Drift) :
    Traced env w jobs φ (c.step (machine env) (.drift d)) where
  heard := h.heard
  accounts := h.accounts.drift d
  writes := h.writes
  hears := h.hears

theorem Traced.issue (h : Traced env w jobs φ c) {cmd : Cmd} {k : Except Exc cmd.Val → AppM Result}
    (hm : StageMove env (jobs i) (φ i) cmd ((c.threads i).locals, c.world) st') :
    Traced env w jobs (Function.update φ i st') (c.issue (machine env) i cmd k) := by
  cases cmd with
  | auth cmd =>
    obtain ⟨hmay, -, rfl⟩ := hm.auth_inv
    rw [h.heard i] at hmay ⊢
    have hsub : ∀ j, told c j ⊆ hearing env (told c) i cmd (c.threads i).locals.accounts
        c.world.accounts j := subset_update (told c) i _
    constructor
    case heard =>
      intro j
      rw [told_issue_auth]
      by_cases hj : j = i
      · subst hj
        rw [Function.update_self, hearing, Function.update_self]
        rfl
      · rw [Function.update_of_ne hj, hearing, Function.update_of_ne hj]
        exact h.heard j
    case accounts =>
      rw [told_issue_auth]
      exact (h.accounts.exec h.hears (h.writes i) hmay).mono hsub
    case writes =>
      intro j write hw
      rw [told_issue_auth]
      by_cases hj : j = i
      · subst hj
        rw [Config.threads_issue_self] at hw
        exact writeFrom_exec h.hears (h.writes j) hmay write hw
      · rw [Config.threads_issue_of_ne hj] at hw
        exact (h.writes j write hw).mono hsub
    case hears =>
      rw [told_issue_auth]
      exact h.hears.exec h.accounts (h.writes i)
  | work cmd =>
    constructor
    case heard =>
      intro j
      rw [told_issue_work]
      by_cases hj : j = i
      · subst hj
        rw [Function.update_self, hm.heard_work]
        exact h.heard j
      · rw [Function.update_of_ne hj]
        exact h.heard j
    case accounts =>
      rw [told_issue_work]
      exact h.accounts
    case writes =>
      intro j write hw
      rw [told_issue_work]
      by_cases hj : j = i
      · subst hj
        rw [Config.threads_issue_self] at hw
        exact h.writes j write hw
      · rw [Config.threads_issue_of_ne hj] at hw
        exact h.writes j write hw
    case hears =>
      rw [told_issue_work]
      exact h.hears

omit [DecidableEq ι] in
theorem all_obey (env : Env) (w : World) (jobs : ι → Job) :
    AllObey (machine env) (fun i => StageMove env (jobs i)) (fun _ _ _ => True)
      (fun _ => .accounts []) (beside env w jobs) :=
  fun i => job_obeys env (jobs i)

end Accounts

end TaskMgtApp.App
