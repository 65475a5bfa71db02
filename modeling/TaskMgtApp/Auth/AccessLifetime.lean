import TaskMgtApp.Auth.Credentials
import TaskMgtApp.Auth.Recovery

/-!
# The exact lifetime of an access token

No store knows an access token: `get_current_user` reads the account from the token and
looks whether it is active. `AccessLives` says from the log alone how long a token is good;
no logout, refresh or reset shortens that time.
-/
namespace TaskMgtApp.Auth

open TaskMgtApp.Common
open TaskMgtApp.Lib.Program TaskMgtApp.Lib.Program.Prog

/-! ## The log -/

/-- `x` was returned at second `n`, as the access token of a pair for the account `u`. -/
def AccessIssued (env : Env) (log : List Entry) (x : String) (u : UUID) (n : Nat) : Prop :=
  ∃ T, IssuedTo env log x T u ∧ ∃ e ∈ log, e.outcome = .ok (.tokenPair x T) ∧ e.before.now = n

/-- `x` was returned as an access token of `u`, and its time is not up. -/
def AccessLives (env : Env) (t : Trace) (x : String) (u : UUID) : Prop :=
  ∃ n, AccessIssued env t.log x u n ∧
    t.world.now < n + env.settings.accessTokenExpireMinutes * 60

/-- Every pair that the log shows has left the app, its access token with the time of its
return. -/
def PairsReturned (env : Env) (t : Trace) : Prop :=
  ∀ e ∈ t.log, ∀ a T, e.outcome = .ok (.tokenPair a T) → ∃ u j,
    IssuedTo env t.log a T u ∧ a ∈ t.world.issued ∧ env.decode a = some
      ⟨u.str, .access, e.before.now, e.before.now + env.settings.accessTokenExpireMinutes * 60, j⟩

section Log
variable {env : Env} {t : Trace}

theorem IssuedTo.returned {log : List Entry} {a T : String} {u : UUID} (h : IssuedTo env log a T u) :
    ∃ e ∈ log, e.outcome = .ok (.tokenPair a T) := by
  induction h with
  | @login e log _ _ _ _ _ _ hr ho huser => exact ⟨e, List.mem_cons_self, ho⟩
  | @refresh e log _ _ _ _ _ _ hr ho hu ih => exact ⟨e, List.mem_cons_self, ho⟩
  | earlier h ih =>
    obtain ⟨e, he, ho⟩ := ih
    exact ⟨e, List.mem_cons_of_mem _ he, ho⟩

/-- A request that returns a pair hands out its tokens. -/
theorem Effect.hands_out {w w' : World} {r : Request} {o : Except Exc Reply}
    (h : Effect env w r o w') : (∀ T ∈ w.issued, T ∈ w'.issued) ∧
      ∀ a T, o = .ok (.tokenPair a T) → a ∈ w'.issued ∧ T ∈ w'.issued := by
  cases h with
  | loggedIn | refreshed =>
    refine ⟨fun T hT => List.mem_cons_of_mem _ (List.mem_cons_of_mem _ hT), fun a T ho => ?_⟩
    obtain ⟨rfl, rfl⟩ := Reply.tokenPair.inj (Except.ok.inj ho)
    exact ⟨List.mem_cons_self, List.mem_cons_of_mem _ List.mem_cons_self⟩
  | _ => exact ⟨fun T hT => hT, fun a T ho => by cases ho⟩

theorem PairsReturned.request (h : PairsReturned env t) (hledger : Ledger env t) (r : Request) :
    PairsReturned env (t.step env (.request r)) := by
  have he := serve_effect env t.world r
  obtain ⟨hkept, hnew⟩ := he.hands_out
  intro e hmem a T ho
  rcases List.mem_cons.mp hmem with rfl | hmem
  · obtain ⟨u, d, hi, -, rfl, rfl⟩ := hledger.issues he ho
    exact ⟨u, d.accessJti.str, hi, (hnew _ _ ho).1, env.decode_encode _⟩
  · obtain ⟨u, j, hi, hissued, hd⟩ := h e hmem a T ho
    exact ⟨u, j, .earlier hi, hkept a hissued, hd⟩

theorem pairsReturned_after (env : Env) (now : Nat) {users : List User} (husers : TableOk users)
    (actions : List Action) (hfresh : Fresh (actions.flatMap Action.requests)) :
    PairsReturned env ((Trace.start now users).after env actions) := by
  refine ledger_induction husers hfresh (fun e he => by cases he) ?_
  intro t a hledger _ h _
  cases a with
  | request r => exact PairsReturned.request h hledger r
  | _ => exact h

end Log

/-! ## What `get_current_user` decides -/

/-- The claims of a token that `get_current_user` lets through. -/
def World.accessClaims (env : Env) (w : World) (token : String) : Option Claims :=
  (w.decodeToken env token).filter fun p => p.type = .access

section Decision
variable {env : Env} {w : World} {token : String}

theorem currentUser_eq (env : Env) (w : World) (token : String) :
    w.currentUser env token =
      match w.accessClaims env token with
      | none => .error (.invalidCredentialsError accessTokenMessage)
      | some p =>
        match UUID.parse p.sub with
        | none => .error .valueError
        | some u =>
          match (w.userById u).filter fun user => user.isActive with
          | none => .error (.invalidCredentialsError accessTokenMessage)
          | some user => .ok user := by
  have hv : visibleRows [] w = w.users := by simp [visibleRows]
  unfold World.currentUser getCurrentUser World.accessClaims World.userById
  rw [run_bind, run_catch]
  cases hd : w.decodeToken env token with
  | none => simp [exec, hd]
  | some p =>
    simp only [run_perform, exec, hd]
    by_cases hp : p.type = .access
    · cases hu : UUID.parse p.sub with
      | none => simp [hp, uuidOf, hu, Option.filter_some]
      | some u =>
        cases hfound : w.users.find? fun user => user.deletedAt.isNone && user.id == u with
        | none => simp [hp, uuidOf, hu, run_call, exec, hv, hfound, Option.filter_some]
        | some user =>
          by_cases hactive : user.isActive = false
          · simp [hp, uuidOf, hu, run_call, exec, hv, hfound, hactive, Option.filter_some]
          · simp [hp, uuidOf, hu, run_call, exec, hv, hfound, hactive, Option.filter_some]
    · simp [hp, Option.filter_some]

theorem accessClaims_eq_some {p : Claims} : w.accessClaims env token = some p ↔
    token ∈ w.issued ∧ env.decode token = some p ∧ w.now < p.exp ∧ p.type = .access := by
  unfold World.accessClaims World.decodeToken
  by_cases hissued : token ∈ w.issued
  · simp [hissued, Option.filter_eq_some_iff]
  · simp [hissued]

/-- What is let through is a token of some pair of the log, whose time is not up. -/
theorem Ledger.accessLives_iff {t : Trace} (hledger : Ledger env t) (hreturned : PairsReturned env t)
    {u : UUID} : AccessLives env t token u ↔ ∃ p, t.world.accessClaims env token = some p ∧ p.sub = u.str := by
  constructor
  · rintro ⟨n, ⟨T, hi, e, he, ho, rfl⟩, hlt⟩
    obtain ⟨v, j, hv, hissued, hd⟩ := hreturned e he token T ho
    obtain rfl := (hledger.pairs _ _ _ hi).user_eq (hledger.pairs _ _ _ hv)
    exact ⟨_, accessClaims_eq_some.mpr ⟨hissued, hd, hlt, rfl⟩, rfl⟩
  · rintro ⟨p, hp, hsub⟩
    obtain ⟨hissued, hd, hlt, htype⟩ := accessClaims_eq_some.mp hp
    obtain ⟨a, T, v, hi, hpair⟩ := hledger.issued token hissued
    have hfor := hledger.pairs _ _ _ hi
    have ha : token = a := by
      refine hpair.resolve_right fun hT => ?_
      obtain ⟨q, hq, hrefresh, -⟩ := hfor.refresh
      obtain rfl := Option.some.inj (hd.symm.trans (hT ▸ hq))
      rw [htype] at hrefresh
      cases hrefresh
    subst ha
    obtain ⟨q, hq, -, hqsub⟩ := hfor.access
    obtain rfl := Option.some.inj (hd.symm.trans hq)
    obtain rfl := UUID.str_inj.mp (hsub.symm.trans hqsub)
    obtain ⟨e, he, ho⟩ := hi.returned
    obtain ⟨w, j, -, -, hd'⟩ := hreturned e he token T ho
    obtain rfl := Option.some.inj (hd.symm.trans hd')
    exact ⟨_, ⟨T, hi, e, he, ho, rfl⟩, hlt⟩

/-- Nor is there a token that names no account. -/
theorem Ledger.currentUser_iff {t : Trace} (hledger : Ledger env t) (hreturned : PairsReturned env t) :
    (∀ user, t.world.currentUser env token = .ok user ↔
      AccessLives env t token user.id ∧ user ∈ t.world.users ∧ user.isActive = true ∧
        user.deletedAt = none) ∧
    ((∀ user, t.world.currentUser env token ≠ .ok user) →
      t.world.currentUser env token = .error (.invalidCredentialsError accessTokenMessage)) := by
  have hlives : ∀ u, AccessLives env t token u ↔
      ∃ p, t.world.accessClaims env token = some p ∧ p.sub = u.str :=
    fun _ => hledger.accessLives_iff hreturned
  rw [currentUser_eq]
  cases hp : t.world.accessClaims env token with
  | none =>
    refine ⟨fun user => ⟨fun h => (by cases h), fun h => ?_⟩, fun _ => rfl⟩
    obtain ⟨q, hq, -⟩ := (hlives user.id).mp h.1
    rw [hp] at hq
    cases hq
  | some p =>
    obtain ⟨hissued, hd, -, htype⟩ := accessClaims_eq_some.mp hp
    obtain ⟨a, T, u, hi, hpair⟩ := hledger.issued token hissued
    have hsub : p.sub = u.str := by
      rcases hpair with rfl | rfl
      · obtain ⟨q, hq, -, hqsub⟩ := (hledger.pairs _ _ _ hi).access
        obtain rfl := Option.some.inj (hd.symm.trans hq)
        exact hqsub
      · obtain ⟨q, hq, -, hqsub⟩ := (hledger.pairs _ _ _ hi).refresh
        obtain rfl := Option.some.inj (hd.symm.trans hq)
        exact hqsub
    have hu : AccessLives env t token u := (hlives u).mpr ⟨p, hp, hsub⟩
    simp only [hsub, UUID.parse_str]
    cases huser : (t.world.userById u).filter fun user => user.isActive with
    | none =>
      refine ⟨fun user => ⟨fun h => (by cases h), fun h => ?_⟩, fun _ => rfl⟩
      obtain ⟨hl, hmem, hactive, hdel⟩ := h
      obtain ⟨q, hq, hqsub⟩ := (hlives user.id).mp hl
      obtain rfl := Option.some.inj (hp.symm.trans hq)
      obtain rfl := UUID.str_inj.mp (hsub.symm.trans hqsub)
      rw [userById_eq_some hledger.table hmem hdel] at huser
      simp [hactive] at huser
    | some found =>
      obtain ⟨hfound, hactive⟩ := Option.filter_eq_some_iff.mp huser
      have hmem : found ∈ t.world.users := World.userById_mem hfound
      have hid : found.id = u := World.id_of_userById hfound
      have hdel : found.deletedAt = none := by
        have hcond := List.find?_some hfound
        simp only [Bool.and_eq_true, Option.isNone_iff_eq_none] at hcond
        exact hcond.1
      refine ⟨fun user => ⟨fun h => ?_, fun h => ?_⟩, fun h => absurd rfl (h found)⟩
      · obtain rfl := Except.ok.inj h
        exact ⟨hid ▸ hu, hmem, hactive, hdel⟩
      · obtain ⟨hl, hmem', -, -⟩ := h
        obtain ⟨q, hq, hqsub⟩ := (hlives user.id).mp hl
        obtain rfl := Option.some.inj (hp.symm.trans hq)
        have hsame : found.id = user.id := hid.trans (UUID.str_inj.mp (hsub.symm.trans hqsub))
        exact congrArg Except.ok (hledger.table.ids.eq_of_key hmem hmem' hsame)

end Decision

/-- After every run of requests, deactivations and soft deletions, a bearer token stands for
an account if and only if it was returned as an access token of that account less than its
lifetime ago and the account is active and not deleted; neither a logout nor a refresh nor
a reset takes it back. Any other token ends with `InvalidCredentialsError`. -/
theorem access_lifetime (env : Env) (now : Nat) {users : List User} (husers : TableOk users)
    (actions : List Action) (hfresh : Fresh (actions.flatMap Action.requests)) (token : String) :
    let t := (Trace.start now users).after env actions
    (∀ user, t.world.currentUser env token = .ok user ↔
      AccessLives env t token user.id ∧ user ∈ t.world.users ∧ user.isActive = true ∧
        user.deletedAt = none) ∧
    ((∀ user, t.world.currentUser env token ≠ .ok user) →
      t.world.currentUser env token = .error (.invalidCredentialsError accessTokenMessage)) :=
  (ledger_after env now husers actions hfresh).currentUser_iff
    (pairsReturned_after env now husers actions hfresh)

/-- The access token that Ada gets a minute after the start. -/
def adaToken : String := writeClaims ⟨ada.id.str, .access, 1060, 1960, (plainDraws .one).accessJti.str⟩

/-- It is still good a second before its time is up. -/
theorem access_lifetime_login :
    AccessLives plainEnv ((Trace.start 1000 []).after plainEnv (adaJoins ++ [.wait 899])) adaToken ada.id :=
  (((access_lifetime plainEnv 1000 tableOk_nil (adaJoins ++ [.wait 899]) (by decide) adaToken).1
    adaVerified).mp (by decide +kernel)).1

end TaskMgtApp.Auth
