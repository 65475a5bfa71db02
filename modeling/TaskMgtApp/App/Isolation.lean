import TaskMgtApp.App.Authority
import TaskMgtApp.Auth.Isolation

/-!
# Addresses do not notice each other

Take everything out of a run that is about other addresses than `e`: the auth requests that
name another email or present a token of another account, and the calls with such a token.
What is left is answered as before, and leaves the same accounts and the same projects and
tasks behind.
-/
namespace TaskMgtApp.App

open TaskMgtApp.Common
open TaskMgtApp.Auth (AlikeFor Other Sound IssuedTo TableOk)

/-! ## Taking the others out -/

/-- The call carries no token of an account with the address `e`. -/
def Call.Elsewhere (env : Env) (s : System) (e : String) (c : Call) : Prop :=
  ∀ token, env.bearer c.authorization = some token → ∀ a T u,
    IssuedTo env.auth s.accounts.log a T u → token = a ∨ token = T → Other s.accounts.world.users e u

def Action.Elsewhere (env : Env) (s : System) (e : String) : Action → Prop
  | .accounts action => action.Elsewhere env.auth s.accounts e
  | .call c => c.Elsewhere env s e

/-- What an action is answered. -/
inductive Output where
  | nothing
  | outcome (outcome : Except Exc Auth.Reply)
  | answer (answer : Answer)

def Action.output (env : Env) (s : System) : Action → Output
  | .accounts (.request r) => .outcome (Auth.serve env.auth s.accounts.world r).1
  | .accounts _ => .nothing
  | .call c => .answer (c.handle env s).1

/-- The answers to all actions. -/
def outputs (env : Env) : System → List Action → List Output
  | _, [] => []
  | s, a :: as => a.output env s :: outputs env (s.step env a) as

section Purge
open Classical

/-- The answers to the actions that are not elsewhere. -/
noncomputable def received (env : Env) (e : String) : System → List Action → List Output
  | _, [] => []
  | s, a :: as =>
    if a.Elsewhere env s e then received env e (s.step env a) as
    else a.output env s :: received env e (s.step env a) as

/-- The actions that are not elsewhere. -/
noncomputable def purge (env : Env) (e : String) : System → List Action → List Action
  | _, [] => []
  | s, a :: as =>
    if a.Elsewhere env s e then purge env e (s.step env a) as
    else a :: purge env e (s.step env a) as

end Purge

/-! ## Draws still to come -/

/-- The ids that the registrations among the actions draw. -/
def userIds (actions : List Action) : List UUID :=
  ((actions.flatMap Action.auth).flatMap Auth.Action.requests).flatMap Auth.Request.userIds

/-- What the actions draw is new to the system, and no draw repeats. -/
structure NewTo (s : System) (actions : List Action) : Prop where
  auth : Auth.Fresh
    (s.accounts.requests ++ (actions.flatMap Action.auth).flatMap Auth.Action.requests)
  rows : Work.FreshIds s.work (actions.flatMap fun a => a.projectDraw.toList)
    (actions.flatMap fun a => a.taskDraw.toList)
  accounts : ∀ row ∈ s.accounts.world.users, row.id ∉ userIds actions
  distinct : (userIds actions).Nodup

section New
variable {env : Env} {s : System} {a : Action} {as : List Action}

theorem userIds_cons (a : Action) (as : List Action) : userIds (a :: as) =
    (a.auth.flatMap Auth.Action.requests).flatMap Auth.Request.userIds ++ userIds as := by
  simp [userIds, List.flatMap_append]

/-- An account that is there after an action was there, or has a drawn id. -/
theorem id_of_step {row : Auth.User} (hrow : row ∈ (s.step env a).accounts.world.users) :
    (∃ old ∈ s.accounts.world.users, old.id = row.id) ∨
      row.id ∈ (a.auth.flatMap Auth.Action.requests).flatMap Auth.Request.userIds := by
  have hmap : ∀ g : Auth.User → Auth.User, (∀ old, (g old).id = old.id) →
      row ∈ s.accounts.world.users.map g → ∃ old ∈ s.accounts.world.users, old.id = row.id := by
    intro g hg hrow
    obtain ⟨old, hold, rfl⟩ := List.mem_map.mp hrow
    exact ⟨old, hold, (hg old).symm⟩
  cases a with
  | call c => exact .inl ⟨row, hrow, rfl⟩
  | accounts action =>
    cases action with
    | wait n => exact .inl ⟨row, hrow, rfl⟩
    | setActive id isActive => exact .inl (hmap _ (fun old => (by split <;> rfl)) hrow)
    | softDelete id => exact .inl (hmap _ (fun old => (by split <;> rfl)) hrow)
    | request r =>
      change row ∈ (Auth.serve env.auth s.accounts.world r).2.users at hrow
      have he := Auth.serve_effect env.auth s.accounts.world r
      generalize (Auth.serve env.auth s.accounts.world r).1 = o at he
      generalize (Auth.serve env.auth s.accounts.world r).2 = w' at he hrow
      cases he with
      | registered email password fullName d =>
        rcases List.mem_append.mp hrow with hrow | hrow
        · exact .inl ⟨row, hrow, rfl⟩
        · obtain rfl := List.mem_singleton.mp hrow
          exact .inr (by simp [Action.auth, Auth.Action.requests, Auth.Request.userIds, Auth.World.newUser])
      | verified x userId user =>
        exact .inl (hmap _ (fun old => (Auth.applyRow_keeps _ old _).1) hrow)
      | reset x newPassword salt userId user =>
        exact .inl (hmap _ (fun old => (Auth.applyRow_keeps _ old _).1) hrow)
      | _ => exact .inl ⟨row, hrow, rfl⟩

theorem NewTo.drop (h : NewTo s (a :: as)) : NewTo s as where
  auth := by
    have hperm : ∀ rs rs' rs'' : List Auth.Request,
        (rs ++ (rs' ++ rs'')).Perm ((rs ++ rs'') ++ rs') := by
      intro rs rs' rs''
      rw [List.append_assoc]
      exact List.perm_append_comm.append_left rs
    have hfresh := h.auth
    rw [List.flatMap_cons, List.flatMap_append] at hfresh
    exact (hfresh.perm (hperm _ _ _)).of_append
  rows := Work.FreshIds.drop h.rows
  accounts row hrow hmem := h.accounts row hrow (by simp [userIds_cons, hmem])
  distinct := by
    have hdistinct := h.distinct
    rw [userIds_cons] at hdistinct
    exact (List.nodup_append.mp hdistinct).2.1

/-- The draws of a request for projects or tasks are new. -/
theorem NewTo.call {c : Call} {request : Work.HttpRequest} (h : NewTo s (.call c :: as))
    (hroute : c.route = .work request) :
    Work.FreshIds s.work (request.projectDraw.toList ++ as.flatMap fun a => a.projectDraw.toList)
      (request.taskDraw.toList ++ as.flatMap fun a => a.taskDraw.toList) := by
  simpa [Action.projectDraw, Action.taskDraw, Route.projectDraw, Route.taskDraw, hroute] using h.rows

theorem NewTo.step (h : NewTo s (a :: as)) (hvalid : s.work.Valid) : NewTo (s.step env a) as where
  auth := by
    have hfresh := h.auth
    rw [List.flatMap_cons, List.flatMap_append, ← List.append_assoc] at hfresh
    cases a with
    | accounts action =>
      change Auth.Fresh ((s.accounts.step env.auth action).requests ++ _)
      rw [Auth.Trace.requests_step]
      simpa [Action.auth] using hfresh
    | call c =>
      change Auth.Fresh (s.accounts.requests ++ _)
      simpa [Action.auth] using hfresh
  rows := by
    cases a with
    | accounts action => exact Work.FreshIds.drop h.rows
    | call c =>
      change Work.FreshIds (c.handle env s).2 _ _
      cases hc : c.currentUser env s.accounts with
      | error answer =>
        rw [handle_refused hc]
        exact Work.FreshIds.drop h.rows
      | ok user =>
        obtain ⟨-, hme⟩ | ⟨request, hroute, hwork⟩ := handle_work hc
        · rw [hme]
          exact Work.FreshIds.drop h.rows
        · rw [hwork]
          exact Work.handle_fresh hvalid.at (Work.FreshIds.at (h.call hroute))
  accounts row hrow hmem := by
    have hdistinct := h.distinct
    rw [userIds_cons] at hdistinct
    rcases id_of_step hrow with ⟨old, hold, hid⟩ | hdrawn
    · exact h.accounts old hold (by simp [userIds_cons, hid, hmem])
    · exact (List.nodup_append.mp hdistinct).2.2 _ hdrawn _ hmem rfl
  distinct := h.drop.distinct

end New

/-! ## Two systems that are alike for one address -/

/-- The second system has fewer accounts, and all about the address `e` is the same: the
accounts, and the projects and tasks that they see. -/
structure Twin (env : Env) (e : String) (s s' : System) : Prop where
  accounts : AlikeFor env.auth e s.accounts s'.accounts
  sound : Sound env.auth s.accounts
  sound' : Sound env.auth s'.accounts
  valid : s.work.Valid
  valid' : s'.work.Valid
  entries : ∀ u, ¬ Other s.accounts.world.users e u → s'.work.entries u = s.work.entries u

section Twins
variable {env : Env} {e : String} {s s' : System} {a : Action} {as : List Action} {c : Call}

/-- A call acts for an account that its token was issued for. -/
theorem issued_of_currentUser (hsound : Sound env.auth s.accounts) {user : Auth.User}
    (h : c.currentUser env s.accounts = .ok user) :
    ∃ token a T, env.bearer c.authorization = some token ∧
      IssuedTo env.auth s.accounts.log a T user.id ∧ (token = a ∨ token = T) := by
  obtain ⟨token, hbearer, huser⟩ := currentUser_ok h
  obtain ⟨p, u, hmem, hdecode, -, hsub, hfound, -⟩ := Auth.currentUser_ok huser
  obtain ⟨a, T, v, hi, hpair⟩ := hsound.ledger.issued token hmem
  obtain ⟨q, hq, hv⟩ := hsound.ledger.sub_of_pair hi hpair
  obtain rfl := Option.some.inj (hdecode.symm.trans hq)
  obtain rfl : u = v := UUID.str_inj.mp (hsub.symm.trans hv)
  obtain rfl := Auth.World.id_of_userById hfound
  exact ⟨token, a, T, hbearer, hi, hpair⟩

/-- A call leaves what everybody else sees. -/
theorem handle_entries (hvalid : s.work.Valid) {u : UUID}
    (hne : ∀ user, c.currentUser env s.accounts = .ok user → user.id ≠ u) :
    (c.handle env s).2.entries u = s.work.entries u := by
  obtain ⟨hprojects, htasks⟩ := Prod.mk.inj (handle_rowsOf hvalid hne)
  rw [← Work.entries_view, ← Work.entries_view (w := s.work)]
  unfold Work.World.entries
  rw [hprojects, htasks]

/-- A call that is not elsewhere acts for the same account of the address in both, or for none. -/
theorem Twin.currentUser (h : Twin env e s s') (hhere : ¬ c.Elsewhere env s e) :
    c.currentUser env s'.accounts = c.currentUser env s.accounts ∧
      ∀ user, c.currentUser env s.accounts = .ok user → ¬ Other s.accounts.world.users e user.id := by
  simp only [Call.Elsewhere, not_forall] at hhere
  obtain ⟨token, hbearer, a, T, u, hi, hpair, hu⟩ := hhere
  constructor
  · unfold Call.currentUser
    rw [hbearer]
    simp only [h.accounts.currentUser h.sound h.sound' hi hpair hu]
  · intro user huser
    obtain ⟨token', b, S, hbearer', hi', hpair'⟩ := issued_of_currentUser h.sound huser
    obtain rfl := Option.some.inj (hbearer.symm.trans hbearer')
    obtain ⟨p, hp, hsub⟩ := h.sound.ledger.sub_of_pair hi hpair
    obtain ⟨q, hq, hsub'⟩ := h.sound.ledger.sub_of_pair hi' hpair'
    obtain rfl := Option.some.inj (hp.symm.trans hq)
    rwa [← UUID.str_inj.mp (hsub.symm.trans hsub')]

/-- A call that is not elsewhere, in both systems. -/
theorem Twin.call (h : Twin env e s s') (hnew : NewTo s (.call c :: as))
    (hnew' : NewTo s' (.call c :: as)) (hhere : ¬ c.Elsewhere env s e) :
    (c.handle env s').1 = (c.handle env s).1 ∧ ∀ u, ¬ Other s.accounts.world.users e u →
      (c.handle env s').2.entries u = (c.handle env s).2.entries u := by
  obtain ⟨hsame, hhere⟩ := h.currentUser hhere
  cases huser : c.currentUser env s.accounts with
  | error answer =>
    rw [handle_refused huser, handle_refused (hsame.trans huser)]
    exact ⟨rfl, h.entries⟩
  | ok user =>
    have hu := hhere user huser
    have hinstant : c.instant s'.accounts = c.instant s.accounts := by
      unfold Call.instant
      rw [h.accounts.now]
    cases hroute : c.route with
    | me =>
      simp only [Call.handle, hsame, huser, hroute]
      exact ⟨trivial, h.entries⟩
    | work request =>
      have hnow' : ({ s'.work with now := c.instant s.accounts } : Work.World).Valid := h.valid'.at
      have hnow : ({ s.work with now := c.instant s.accounts } : Work.World).Valid := h.valid.at
      have hcaller := Work.handle_caller env.work env.pydantic hnow' hnow
        (Work.FreshIds.at (hnew'.call hroute)) (Work.FreshIds.at (hnew.call hroute)) rfl
        (h.entries user.id hu)
      have hhandle := handle_request huser hroute
      have hhandle' := handle_request (s := s') (hsame.trans huser) hroute
      rw [hinstant] at hhandle'
      refine ⟨?_, fun u hother => ?_⟩
      · rw [hhandle, hhandle', hcaller.1]
      by_cases hid : user.id = u
      · subst hid
        rw [hhandle, hhandle']
        exact hcaller.2
      · have hne : ∀ found, c.currentUser env s.accounts = .ok found → found.id ≠ u := by
          intro found hfound
          obtain rfl := Except.ok.inj (huser.symm.trans hfound)
          exact hid
        rw [handle_entries h.valid hne, handle_entries h.valid' (hsame ▸ hne)]
        exact h.entries u hother

/-- An action elsewhere, in the first system only. -/
theorem Twin.elsewhere (h : Twin env e s s')
    (hlower : ∀ x, env.auth.lower (env.auth.lower x) = env.auth.lower x) (hnew : NewTo s (a :: as))
    (helse : a.Elsewhere env s e) : Twin env e (s.step env a) s' := by
  cases a with
  | accounts action =>
    have hfresh : Auth.Fresh (s.accounts.requests ++ action.requests) := by
      have hfresh := hnew.auth
      rw [List.flatMap_cons, List.flatMap_append, ← List.append_assoc] at hfresh
      simpa [Action.auth] using hfresh.of_append
    exact ⟨h.accounts.elsewhere h.sound hlower hfresh helse, h.sound.step action hfresh, h.sound',
      h.valid, h.valid', fun u hu => h.entries u fun hother => hu (hother.step action)⟩
  | call c =>
    refine ⟨h.accounts, h.sound, h.sound', handle_valid h.valid, h.valid', fun u hu => ?_⟩
    refine (h.entries u hu).trans (handle_entries h.valid fun user huser hid => hu ?_).symm
    obtain ⟨token, b, T, hbearer, hi, hpair⟩ := issued_of_currentUser h.sound huser
    exact hid ▸ helse token hbearer b T user.id hi hpair

/-- An action that is not elsewhere, in both. -/
theorem Twin.step (h : Twin env e s s')
    (hlower : ∀ x, env.auth.lower (env.auth.lower x) = env.auth.lower x) (hnew : NewTo s (a :: as))
    (hnew' : NewTo s' (a :: as)) (hhere : ¬ a.Elsewhere env s e) :
    a.output env s' = a.output env s ∧ Twin env e (s.step env a) (s'.step env a) := by
  cases a with
  | accounts action =>
    have hfresh : Auth.Fresh (s.accounts.requests ++ action.requests) := by
      have hfresh := hnew.auth
      rw [List.flatMap_cons, List.flatMap_append, ← List.append_assoc] at hfresh
      simpa [Action.auth] using hfresh.of_append
    have hfresh' : Auth.Fresh (s'.accounts.requests ++ action.requests) := by
      have hfresh := hnew'.auth
      rw [List.flatMap_cons, List.flatMap_append, ← List.append_assoc] at hfresh
      simpa [Action.auth] using hfresh.of_append
    have hids : ∀ r ∈ action.requests, ∀ id ∈ r.userIds, ∀ row ∈ s.accounts.world.users, row.id ≠ id := by
      rintro r hr id hid row hrow rfl
      refine hnew.accounts row hrow ?_
      rw [userIds_cons]
      refine List.mem_append_left _ (List.mem_flatMap.mpr ⟨r, ?_, hid⟩)
      simpa [Action.auth] using hr
    refine ⟨?_, h.accounts.step h.sound h.sound' hlower hfresh hfresh' hids hhere,
      h.sound.step action hfresh, h.sound'.step action hfresh', h.valid, h.valid',
      fun u hu => h.entries u fun hother => hu (hother.step action)⟩
    cases action with
    | request r =>
      exact congrArg Output.outcome (h.accounts.request h.sound h.sound' hlower hfresh hfresh'
        (hids r (List.mem_singleton_self r)) hhere).1
    | _ => rfl
  | call c =>
    obtain ⟨hanswer, hentries⟩ := h.call hnew hnew' hhere
    exact ⟨congrArg Output.answer hanswer, h.accounts, h.sound, h.sound', handle_valid h.valid,
      handle_valid h.valid', hentries⟩

/-- Along the whole run. -/
theorem Twin.run (h : Twin env e s s')
    (hlower : ∀ x, env.auth.lower (env.auth.lower x) = env.auth.lower x) (hnew : NewTo s as)
    (hnew' : NewTo s' as) :
    received env e s as = outputs env s' (purge env e s as) ∧
      Twin env e (s.after env as) (s'.after env (purge env e s as)) := by
  induction as generalizing s s' with
  | nil => exact ⟨rfl, h⟩
  | cons a as ih =>
    by_cases helse : a.Elsewhere env s e
    · simp only [received, purge, if_pos helse]
      exact ih (h.elsewhere hlower hnew helse) (hnew.step h.valid) hnew'.drop
    · obtain ⟨houtput, hstep⟩ := h.step hlower hnew hnew' helse
      obtain ⟨hreceived, hafter⟩ := ih hstep (hnew.step h.valid) (hnew'.step h.valid')
      simp only [received, purge, if_neg helse, outputs, houtput, hreceived, System.after_cons]
      exact ⟨trivial, hafter⟩

theorem Twin.start (env : Env) (e : String) (now : Nat) {users : List Auth.User}
    (husers : TableOk users) {work : Work.World} (hvalid : work.Valid) :
    Twin env e (System.start now users work) (System.start now users work) where
  accounts := .refl env.auth e _
  sound := .start env.auth now husers
  sound' := .start env.auth now husers
  valid := hvalid
  valid' := hvalid
  entries _ _ := rfl

end Twins

/-- Taking everything that is about other addresses out of a run changes nothing for an
address: what is left is answered as before, and in the end its accounts, and the projects
and tasks that they see, are the same. -/
theorem addresses_isolated (env : Env)
    (hlower : ∀ x, env.auth.lower (env.auth.lower x) = env.auth.lower x) (now : Nat)
    {users : List Auth.User} (husers : TableOk users) {work : Work.World} (hvalid : work.Valid)
    (e : String) (actions : List Action) (hnew : NewTo (System.start now users work) actions) :
    let s := System.start now users work
    let t := s.after env actions
    let t' := s.after env (purge env e s actions)
    received env e s actions = outputs env s (purge env e s actions) ∧
      (t'.accounts.world.users.filter fun row => row.email = e) =
        t.accounts.world.users.filter (fun row => row.email = e) ∧
      ∀ u, ¬ Other t.accounts.world.users e u → t'.work.entries u = t.work.entries u := by
  intro s t t'
  have hstart : Twin env e s s := .start env e now husers hvalid
  obtain ⟨hreceived, htwin⟩ := hstart.run hlower hnew hnew
  exact ⟨hreceived, htwin.accounts.rows, htwin.entries⟩

/-- Ada and Bob join, Bob logs in, and each of the two creates a project. -/
def besideAda : List Action :=
  Auth.bobJoins.map .accounts ++
    [.accounts (.request (.login "bob@example.com" "open sesame" (Auth.plainDraws .two))),
      bearing (Auth.writeClaims ⟨(plainUuid .zero .one).str, .access, 1060, 1960,
          (Auth.plainDraws .two).accessJti.str⟩)
        (.postProjects (some (.object [("name", .string "Garden")])) (plainUuid .one .one))] ++
    adaCreates

theorem addresses_isolated_ada :
    let s := System.start 1000 [] Work.noRows
    let t := s.after plainEnv besideAda
    let t' := s.after plainEnv (purge plainEnv "ada@example.com" s besideAda)
    received plainEnv "ada@example.com" s besideAda =
        outputs plainEnv s (purge plainEnv "ada@example.com" s besideAda) ∧
      (t'.accounts.world.users.filter fun row => row.email = "ada@example.com") =
        t.accounts.world.users.filter (fun row => row.email = "ada@example.com") ∧
      ∀ u, ¬ Other t.accounts.world.users "ada@example.com" u →
        t'.work.entries u = t.work.entries u :=
  addresses_isolated plainEnv Auth.saltedEnv_lower 1000 Auth.tableOk_nil Work.noRows_valid
    "ada@example.com" besideAda ⟨by decide +kernel, ⟨by decide +kernel, by decide +kernel⟩,
      fun row hrow => (by cases hrow), by decide +kernel⟩

end TaskMgtApp.App
