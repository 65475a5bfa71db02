import TaskMgtApp.App.Model

/-!
# Who can change the rows of a user

The rows of a user change only through calls with an access token that was issued to that
user, in time, while the account is active. So the rows of an account that is deactivated
or deleted stay as they are, whatever tokens are still around.
-/
namespace TaskMgtApp.App

open TaskMgtApp.Common
open TaskMgtApp.Auth (TableOk AccessLives ada adaJoins adaToken adaVerified tableOk_nil)

/-- The call carries an access token of `u` that lives, and the account is active. -/
structure ActsFor (env : Env) (s : System) (c : Call) (u : UUID) : Prop where
  token : ∃ token, env.bearer c.authorization = some token ∧ AccessLives env.auth s.accounts token u
  account : ∃ user ∈ s.accounts.world.users, user.id = u ∧ user.isActive = true ∧ user.deletedAt = none

section Runs
variable {env : Env} {now : Nat} {users : List Auth.User} {work : Work.World}

/-- Whom a call is taken for, in every state. -/
theorem actsFor_of_currentUser (husers : TableOk users) {actions : List Action}
    (hfresh : Auth.Fresh ((actions.flatMap Action.auth).flatMap Auth.Action.requests)) {c : Call}
    {user : Auth.User}
    (h : c.currentUser env ((System.start now users work).after env actions).accounts = .ok user) :
    ActsFor env ((System.start now users work).after env actions) c user.id := by
  obtain ⟨token, hbearer, huser⟩ := currentUser_ok h
  have haccounts := System.accounts_after env (System.start now users work) actions
  have hledger := Auth.ledger_after env.auth now husers (actions.flatMap Action.auth) hfresh
  have hreturned := Auth.pairsReturned_after env.auth now husers (actions.flatMap Action.auth) hfresh
  change _ = (Auth.Trace.start now users).after env.auth _ at haccounts
  rw [← haccounts] at hledger hreturned
  obtain ⟨hlives, hmem, hactive, hdel⟩ := ((hledger.currentUser_iff hreturned).1 user).mp huser
  exact ⟨⟨token, hbearer, hlives⟩, user, hmem, rfl, hactive, hdel⟩

/-- If something has changed along a list of actions, then at one of them. -/
theorem exists_change {α : Type} (f : System → α) {s : System} {actions : List Action}
    (h : f (s.after env actions) ≠ f s) : ∃ before a rest, actions = before ++ a :: rest ∧
      f ((s.after env before).step env a) ≠ f (s.after env before) := by
  induction actions generalizing s with
  | nil => exact absurd rfl h
  | cons a as ih =>
    by_cases hstep : f (s.step env a) = f s
    · obtain ⟨before, b, rest, rfl, hne⟩ := ih (s := s.step env a) (fun heq => h (heq.trans hstep))
      exact ⟨a :: before, b, rest, rfl, hne⟩
    · exact ⟨[], a, as, rfl, hstep⟩

theorem fresh_prefix {pre post : List Action}
    (h : Auth.Fresh (((pre ++ post).flatMap Action.auth).flatMap Auth.Action.requests)) :
    Auth.Fresh ((pre.flatMap Action.auth).flatMap Auth.Action.requests) := by
  rw [List.flatMap_append, List.flatMap_append] at h
  exact h.of_append

/-- If the rows of `u` are not what they were, then a call in between acted for `u`: it carried
an access token issued to `u` and not yet expired, and the account was active. -/
theorem changes_need_a_token (env : Env) (now : Nat) (users : List Auth.User) (husers : TableOk users)
    (work : Work.World) (hvalid : work.Valid) (pre post : List Action)
    (hfresh : Auth.Fresh (((pre ++ post).flatMap Action.auth).flatMap Auth.Action.requests)) (u : UUID) :
    let s := (System.start now users work).after env pre
    rowsOf (s.after env post).work u ≠ rowsOf s.work u →
      ∃ before c rest, post = before ++ .call c :: rest ∧ ActsFor env (s.after env before) c u := by
  intro s h
  obtain ⟨before, a, rest, hpost, hchange⟩ :=
    exists_change (fun s => rowsOf s.work u) h
  have hvalid' : (s.after env before).work.Valid := by
    rw [← System.after_append]
    exact after_valid hvalid (pre ++ before)
  cases a with
  | accounts action => exact absurd rfl hchange
  | call c =>
    refine ⟨before, c, rest, hpost, ?_⟩
    by_contra hacts
    refine hchange (handle_rowsOf hvalid' fun user huser hid => hacts ?_)
    subst hid
    rw [← System.after_append] at huser ⊢
    refine actsFor_of_currentUser husers ?_ huser
    rw [hpost, ← List.append_assoc] at hfresh
    exact fresh_prefix hfresh

/-! ### Ada joins, and creates a project with her access token -/

/-- `Bearer` and a token, the scheme in either case. -/
def bearerToken (header : Option String) : Option String :=
  let text := (header.getD "").toList
  let credentials := (text.dropWhile (· ≠ ' ')).drop 1
  if (text.takeWhile (· ≠ ' ')).map Char.toLower = "bearer".toList ∧ credentials ≠ [] then
    some (String.ofList credentials)
  else none

def plainEnv : Env := ⟨Auth.plainEnv, Work.plainEnv, Work.plainPydantic, bearerToken⟩

def bearing (token : String) (request : Work.HttpRequest) : Action :=
  .call ⟨some ("bearer " ++ token), .work request, false, 0⟩

def adaCreates : List Action :=
  [.accounts (.wait 899), bearing adaToken
    (.postProjects (some (.object [("name", .string "Thesis")])) (plainUuid .one .zero))]

theorem changes_need_a_token_creates :
    let s := (System.start 1000 [] Work.noRows).after plainEnv (adaJoins.map .accounts)
    ∃ before c rest, adaCreates = before ++ .call c :: rest ∧
      ActsFor plainEnv (s.after plainEnv before) c ada.id :=
  changes_need_a_token plainEnv 1000 [] tableOk_nil Work.noRows Work.noRows_valid
    (adaJoins.map .accounts) adaCreates (by decide) ada.id (by decide +kernel)

/-! ## Accounts that are not active -/

/-- The row of an account lives on; only a reactivation makes it active, nothing brings it back. -/
theorem row_lives_on (env : Env) {accounts : Auth.Trace} {user : Auth.User}
    (huser : user ∈ accounts.world.users) (action : Auth.Action) : ∃ later ∈ (accounts.step env.auth action).world.users, later.id = user.id ∧
      (user.deletedAt ≠ none → later.deletedAt ≠ none) ∧
      (action ≠ .setActive user.id true → user.isActive = false → later.isActive = false) := by
  cases action with
  | wait n => exact ⟨user, huser, rfl, fun h => h, fun _ h => h⟩
  | request r =>
    have he := Auth.serve_effect env.auth accounts.world r
    change ∃ later ∈ (Auth.serve env.auth accounts.world r).2.users, _
    rcases he.users_after with ⟨row, -, happend⟩ | ⟨g, hg, hmap⟩
    · rw [happend]
      exact ⟨user, List.mem_append_left _ huser, rfl, fun h => h, fun _ h => h⟩
    · obtain ⟨hid, -, hactive, hdel⟩ := hg user
      rw [hmap]
      exact ⟨g user, List.mem_map_of_mem huser, hid, fun h => hdel ▸ h, fun _ h => hactive ▸ h⟩
  | setActive id isActive =>
    refine ⟨_, List.mem_map_of_mem huser, ?_⟩
    by_cases hid : user.id = id
    · rw [if_pos hid]
      refine ⟨rfl, fun h => h, fun hne _ => ?_⟩
      cases isActive with
      | false => rfl
      | true => exact absurd (congrArg (Auth.Action.setActive · true) hid.symm) hne
    · rw [if_neg hid]
      exact ⟨rfl, fun h => h, fun _ h => h⟩
  | softDelete id =>
    refine ⟨_, List.mem_map_of_mem huser, ?_⟩
    split
    · exact ⟨rfl, fun _ => by simp, fun _ h => h⟩
    · exact ⟨rfl, fun h => h, fun _ h => h⟩

/-- The account `u` is deleted, or it is deactivated and stays so along the actions. -/
def Suspended (accounts : Auth.Trace) (actions : List Action) (u : UUID) : Prop :=
  ∃ user ∈ accounts.world.users, user.id = u ∧
    (user.deletedAt ≠ none ∨ user.isActive = false ∧ .accounts (.setActive u true) ∉ actions)

theorem Suspended.after (env : Env) {s : System} {before rest : List Action} {u : UUID}
    (h : Suspended s.accounts (before ++ rest) u) : Suspended (s.after env before).accounts rest u := by
  induction before generalizing s with
  | nil => exact h
  | cons a as ih =>
    refine ih (s := s.step env a) ?_
    obtain ⟨user, huser, rfl, hstate⟩ := h
    cases a with
    | call c =>
      refine ⟨user, huser, rfl, hstate.imp_right fun ⟨hinactive, hnone⟩ => ⟨hinactive, ?_⟩⟩
      exact fun hmem => hnone (List.mem_cons_of_mem _ hmem)
    | accounts action =>
      obtain ⟨later, hlater, hid, hdeleted, hinactive⟩ := row_lives_on env huser action
      refine ⟨later, hlater, hid, hstate.imp hdeleted fun ⟨hoff, hnone⟩ => ⟨hinactive ?_ hoff, ?_⟩⟩
      · exact fun heq => hnone (heq ▸ List.mem_cons_self)
      · exact fun hmem => hnone (List.mem_cons_of_mem _ hmem)

/-- While an account is deleted or deactivated no call acts for it, whatever tokens of it are
still good, and its rows stay as they are. -/
theorem suspended_account_is_frozen (env : Env) (now : Nat) (users : List Auth.User)
    (husers : TableOk users) (work : Work.World) (hvalid : work.Valid) (pre post : List Action)
    (hfresh : Auth.Fresh (((pre ++ post).flatMap Action.auth).flatMap Auth.Action.requests)) (u : UUID) :
    let s := (System.start now users work).after env pre
    Suspended s.accounts post u →
      rowsOf (s.after env post).work u = rowsOf s.work u ∧
        ∀ before c rest, post = before ++ .call c :: rest →
          ∀ user, c.currentUser env (s.after env before).accounts = .ok user → user.id ≠ u := by
  intro s hsuspended
  have hnobody : ∀ before c rest, post = before ++ .call c :: rest →
      ∀ user, c.currentUser env (s.after env before).accounts = .ok user → user.id ≠ u := by
    intro before c rest hpost user huser hid
    subst hid
    rw [hpost] at hsuspended
    obtain ⟨row, hrow, hid, hstate⟩ := hsuspended.after env
    rw [hpost, ← List.append_assoc] at hfresh
    have hfirst := fresh_prefix hfresh
    rw [← System.after_append] at huser hrow
    obtain ⟨found, hfound, hid', hactive, hdel⟩ := (actsFor_of_currentUser husers hfirst huser).account
    have hledger := Auth.ledger_after env.auth now husers _ hfirst
    have haccounts := System.accounts_after env (System.start now users work) (pre ++ before)
    change _ = (Auth.Trace.start now users).after env.auth _ at haccounts
    rw [← haccounts] at hledger
    obtain rfl := hledger.table.ids.eq_of_key hrow hfound (hid.trans hid'.symm)
    rcases hstate with hdeleted | ⟨hoff, -⟩
    · exact hdeleted hdel
    · rw [hactive] at hoff
      cases hoff
  refine ⟨?_, hnobody⟩
  by_contra hchange
  obtain ⟨before, a, rest, hpost, hstep⟩ :=
    exists_change (fun s => rowsOf s.work u) hchange
  cases a with
  | accounts action => exact hstep rfl
  | call c =>
    refine hstep (handle_rowsOf ?_ (hnobody before c rest hpost))
    rw [← System.after_append]
    exact after_valid hvalid (pre ++ before)

end Runs

/-- Ada joins and is deactivated. -/
def adaLeaves : List Action := (adaJoins ++ [Auth.Action.setActive ada.id false]).map .accounts

theorem adaLeaves_suspended :
    Suspended ((System.start 1000 [] Work.noRows).after plainEnv adaLeaves).accounts adaCreates ada.id := by
  refine ⟨{ adaVerified with isActive := false, updatedAt := 1060 }, ?_, rfl, .inr ⟨rfl, ?_⟩⟩
  · decide +kernel
  · simp [adaCreates, bearing]

/-- She tries to create a project with an access token that is still good. -/
theorem suspended_account_is_frozen_creates :
    let s := (System.start 1000 [] Work.noRows).after plainEnv adaLeaves
    rowsOf (s.after plainEnv adaCreates).work ada.id = rowsOf s.work ada.id ∧
      ∀ before c rest, adaCreates = before ++ .call c :: rest →
        ∀ user, c.currentUser plainEnv (s.after plainEnv before).accounts = .ok user → user.id ≠ ada.id :=
  suspended_account_is_frozen plainEnv 1000 [] tableOk_nil Work.noRows Work.noRows_valid adaLeaves
    adaCreates (by decide) ada.id adaLeaves_suspended

end TaskMgtApp.App
