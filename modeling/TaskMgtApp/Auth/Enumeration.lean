import TaskMgtApp.Auth.Footprints
import TaskMgtApp.Auth.LoginHistory
import TaskMgtApp.Auth.Http

/-!
# Login and forgot-password do not tell who is registered

Two systems that differ in one account answer the same to every sequence of logins and
reset requests that never guesses its password. The lock and the counter of an address
are all that an answer depends on beside the accounts, and they evolve alike: a login
fails in the same way for a wrong password and for no account at all.
-/
namespace TaskMgtApp.Auth

open TaskMgtApp.Common
open TaskMgtApp.Lib.ExpiringStore

/-! ## Conversations -/

/-- What an outsider can do without an account. -/
inductive Query where
  | wait (seconds : Nat)
  | login (email password : String)
  | forgotPassword (email : String)
  deriving DecidableEq

/-- The responses to a sequence of queries, each with the draws that serving it takes. -/
def answers (env : Env) : World → List (Query × IssueDraws × String) → List Response
  | _, [] => []
  | w, (.wait seconds, _) :: queries => answers env { w with now := w.now + seconds } queries
  | w, (.login email password, d, _) :: queries =>
      (Request.login email password d).respond (serve env w (.login email password d)).1 ::
        answers env (serve env w (.login email password d)).2 queries
  | w, (.forgotPassword email, _, token) :: queries =>
      (Request.requestPasswordReset email token).respond
          (serve env w (.requestPasswordReset email token)).1 ::
        answers env (serve env w (.requestPasswordReset email token)).2 queries

/-! ## Two systems that differ in one account -/

/-- The account of `email`, with the password `q`, is in `w` and not in `w'`; there is no
other difference that an answer to a query could depend on. -/
structure Twin (env : Env) (email q : String) (w w' : World) : Prop where
  now : w.now = w'.now
  locks : ∀ address, SameAt w.redis w'.redis (loginLockKey address)
  attempts : ∀ address, SameAt w.redis w'.redis (loginAttemptsKey address)
  others : ∀ address, env.lower address ≠ env.lower email →
    w.userByEmail env (env.lower address) = w'.userByEmail env (env.lower address)
  account : ∃ user, w.userByEmail env (env.lower email) = some user ∧
    ∀ p, env.verify p user.passwordHash = true → p = q
  missing : w'.userByEmail env (env.lower email) = none

section Steps
variable {env : Env} {email q : String} {w w' : World}

theorem Twin.redis (h : Twin env email q w w') {r r' : Redis} (i i' : List String)
    (hlocks : ∀ address, SameAt r r' (loginLockKey address))
    (hattempts : ∀ address, SameAt r r' (loginAttemptsKey address)) :
    Twin env email q { w with redis := r, issued := i } { w' with redis := r', issued := i' } :=
  ⟨h.now, hlocks, hattempts, h.others, h.account, h.missing⟩

/-- The credential check lets the same account past in both systems. -/
theorem Twin.credentials (h : Twin env email q w w') {address p : String}
    (hguess : env.lower address = env.lower email → p ≠ q) :
    (w.userByEmail env (env.lower address)).filter (credentialsValid env p) =
      (w'.userByEmail env (env.lower address)).filter (credentialsValid env p) := by
  by_cases haddress : env.lower address = env.lower email
  · obtain ⟨user, huser, hpassword⟩ := h.account
    have hwrong : ¬ credentialsValid env p user = true := by
      intro hvalid
      simp only [credentialsValid, Bool.and_eq_true] at hvalid
      exact hguess haddress (hpassword p hvalid.1)
    rw [haddress, huser, h.missing, Option.filter_some_neg (Bool.eq_false_iff.mpr hwrong),
      Option.filter_none]
  · rw [h.others address haddress]

theorem Twin.wait (h : Twin env email q w w') (n : Nat) :
    Twin env email q { w with now := w.now + n } { w' with now := w'.now + n } :=
  ⟨congrArg (· + n) h.now, h.locks, h.attempts, h.others, h.account, h.missing⟩

/-- The keys of tokens are none of those that an answer depends on. -/
theorem Twin.recordToken (h : Twin env email q w w') {u u' : UUID} {d d' : IssueDraws}
    {i i' : List String} :
    Twin env email q { w with redis := w.recordToken env u d, issued := i }
      { w' with redis := w'.recordToken env u' d', issued := i' } := by
  refine h.redis i i' (fun address => ?_) fun address => ?_
  · have hw : SameAt w.redis (w.recordToken env u d) (loginLockKey address) :=
      sameAt_recordToken (by simp) (by simp)
    have hw' : SameAt w'.redis (w'.recordToken env u' d') (loginLockKey address) :=
      sameAt_recordToken (by simp) (by simp)
    exact (hw.symm.trans (h.locks address)).trans hw'
  · have hw : SameAt w.redis (w.recordToken env u d) (loginAttemptsKey address) :=
      sameAt_recordToken (by simp) (by simp)
    have hw' : SameAt w'.redis (w'.recordToken env u' d') (loginAttemptsKey address) :=
      sameAt_recordToken (by simp) (by simp)
    exact (hw.symm.trans (h.attempts address)).trans hw'

/-- A login that does not guess the password is answered alike. -/
theorem Twin.login (h : Twin env email q w w') {address p : String}
    (hguess : env.lower address = env.lower email → p ≠ q) (d d' : IssueDraws) :
    ((Request.login address p d).respond (serve env w (.login address p d)).1).Alike
        ((Request.login address p d').respond (serve env w' (.login address p d')).1) ∧
      Twin env email q (serve env w (.login address p d)).2 (serve env w' (.login address p d')).2 := by
  have hcred := h.credentials hguess
  have httl : w'.redis.ttl w'.now (loginLockKey (env.lower address)) =
      w.redis.ttl w.now (loginLockKey (env.lower address)) := by
    rw [← h.now]
    exact (h.locks (env.lower address)).ttl
  rw [serve_login, serve_login]
  dsimp only
  rw [← hcred, httl]
  by_cases hlocked : 0 < w.redis.ttl w.now (loginLockKey (env.lower address))
  · rw [if_pos hlocked, if_pos hlocked]
    exact ⟨.rfl, h⟩
  · rw [if_neg hlocked, if_neg hlocked]
    cases (w.userByEmail env (env.lower address)).filter (credentialsValid env p) with
    | none =>
      rcases failedAttempt_alike env h.now (h.attempts (env.lower address)) with
        ⟨hf, hf'⟩ | ⟨r, r', hf, hf', hsame⟩
      · simp only [hf, hf']
        exact ⟨.rfl, h⟩
      · simp only [hf, hf']
        exact ⟨.rfl, h.redis w.issued w'.issued (fun a => hsame _ (h.locks a))
          fun a => hsame _ (h.attempts a)⟩
    | some user =>
      by_cases hver : user.isEmailVerified = false
      · simp only [hver, if_true]
        exact ⟨.rfl, h⟩
      · simp only [hver]
        refine ⟨⟨rfl, rfl, .inr ⟨⟨_, _, rfl⟩, _, _, rfl⟩⟩, ?_⟩
        have hcleared : Twin env email q
            { w with redis := (w.redis.delete w.now
              {loginAttemptsKey (env.lower address), loginLockKey (env.lower address)}).2 }
            { w' with redis := (w'.redis.delete w'.now
              {loginAttemptsKey (env.lower address), loginLockKey (env.lower address)}).2 } := by
          refine h.redis w.issued w'.issued (fun a => ?_) fun a => ?_
          · rw [← h.now]
            exact (h.locks a).delete _
          · rw [← h.now]
            exact (h.attempts a).delete _
        exact hcleared.recordToken

/-- A reset request writes a key that no answer depends on. -/
theorem sameAt_requestReset {w : World} {address x k : String} (hk : k ≠ pwdResetKey x) :
    SameAt w.redis (serve env w (.requestPasswordReset address x)).2.redis k := by
  rw [serve_requestPasswordReset]
  cases w.userByEmail env (env.lower address) with
  | none => exact .rfl
  | some user => exact sameAt_setEx hk _ _

theorem users_requestReset (env : Env) (w : World) (address x : String) :
    (serve env w (.requestPasswordReset address x)).2.users = w.users ∧
      (serve env w (.requestPasswordReset address x)).2.now = w.now := by
  rw [serve_requestPasswordReset]
  cases w.userByEmail env (env.lower address) <;> exact ⟨rfl, rfl⟩

theorem respond_requestReset {w : World} {address x : String} :
    (Request.requestPasswordReset address x).respond
      (serve env w (.requestPasswordReset address x)).1 =
    ⟨200, none, .message "If an account with that email exists, a reset link has been sent."⟩ := by
  rw [serve_requestPasswordReset]
  cases w.userByEmail env (env.lower address) <;> rfl

theorem Twin.forgotPassword (h : Twin env email q w w') (address x x' : String) :
    Twin env email q (serve env w (.requestPasswordReset address x)).2
      (serve env w' (.requestPasswordReset address x')).2 := by
  obtain ⟨husers, hnow⟩ := users_requestReset env w address x
  obtain ⟨husers', hnow'⟩ := users_requestReset env w' address x'
  have hlookup : ∀ e, (serve env w (.requestPasswordReset address x)).2.userByEmail env e =
      w.userByEmail env e := fun e => by rw [World.userByEmail, husers, World.userByEmail]
  have hlookup' : ∀ e, (serve env w' (.requestPasswordReset address x')).2.userByEmail env e =
      w'.userByEmail env e := fun e => by rw [World.userByEmail, husers', World.userByEmail]
  constructor
  · rw [hnow, hnow', h.now]
  · intro a
    exact ((sameAt_requestReset (by simp)).symm.trans (h.locks a)).trans (sameAt_requestReset (by simp))
  · intro a
    exact ((sameAt_requestReset (by simp)).symm.trans (h.attempts a)).trans
      (sameAt_requestReset (by simp))
  · intro a ha
    rw [hlookup, hlookup', h.others a ha]
  · rw [hlookup]
    exact h.account
  · rw [hlookup']
    exact h.missing

/-- All answers of two such systems are alike. -/
theorem Twin.answers (h : Twin env email q w w') {queries queries' : List (Query × IssueDraws × String)}
    (hsame : queries.map (·.1) = queries'.map (·.1))
    (hguess : ∀ address p, .login address p ∈ queries.map (·.1) →
      env.lower address = env.lower email → p ≠ q) :
    List.Forall₂ Response.Alike (Auth.answers env w queries) (Auth.answers env w' queries') := by
  induction queries generalizing queries' w w' with
  | nil =>
    rw [List.map_nil, eq_comm, List.map_eq_nil_iff] at hsame
    subst hsame
    exact .nil
  | cons query queries ih =>
    obtain ⟨query', queries'', rfl, hquery, hrest⟩ := List.map_eq_cons_iff.mp hsame.symm
    obtain ⟨kind, d, x⟩ := query
    obtain ⟨kind', d', x'⟩ := query'
    obtain rfl : kind' = kind := hquery
    have hguess' : ∀ address p, .login address p ∈ queries.map (·.1) →
        env.lower address = env.lower email → p ≠ q :=
      fun address p hmem => hguess address p (List.mem_cons_of_mem _ hmem)
    cases kind' with
    | wait n => exact ih (h.wait n) hrest.symm hguess'
    | login address p =>
      obtain ⟨halike, htwin⟩ := h.login (hguess address p List.mem_cons_self) d d'
      exact .cons halike (ih htwin hrest.symm hguess')
    | forgotPassword address =>
      refine .cons ?_ (ih (h.forgotPassword address x x') hrest.symm hguess')
      rw [respond_requestReset, respond_requestReset]
      exact .rfl

end Steps

/-- For every two states that are equal except that `email` has an account with the
password `q` in one and none in the other, and every sequence of logins and reset
requests in which no login for `email` uses `q`: the responses are alike, whatever is
drawn in either system. -/
theorem existence_not_revealed (env : Env) (hlower : ∀ s, env.lower (env.lower s) = env.lower s)
    (w : World) (account : User) (before after : List User) (husers : w.users = before ++ after)
    (email q : String) (hemail : account.email = env.lower email) (hdel : account.deletedAt = none)
    (hpassword : ∀ p, env.verify p account.passwordHash = true ↔ p = q)
    (hnone : w.userByEmail env (env.lower email) = none)
    (queries queries' : List (Query × IssueDraws × String))
    (hsame : queries.map (·.1) = queries'.map (·.1))
    (hguess : ∀ address p, .login address p ∈ queries.map (·.1) →
      env.lower address = env.lower email → p ≠ q) :
    List.Forall₂ Response.Alike
      (answers env { w with users := before ++ account :: after } queries) (answers env w queries') := by
  have hothers : ∀ address, env.lower address ≠ env.lower email →
      World.userByEmail env { w with users := before ++ account :: after } (env.lower address) =
        w.userByEmail env (env.lower address) := by
    intro address haddress
    have hother : (account.deletedAt.isNone && account.email == env.lower (env.lower address)) = false := by
      rw [hlower, hemail, Bool.and_eq_false_iff]
      exact .inr (beq_eq_false_iff_ne.mpr (Ne.symm haddress))
    simp only [World.userByEmail, husers, List.find?_append, List.find?_cons, hother]
  have haccount : World.userByEmail env { w with users := before ++ account :: after }
      (env.lower email) = some account := by
    have hself : (account.deletedAt.isNone && account.email == env.lower (env.lower email)) = true := by
      rw [hlower, hemail, hdel]
      simp
    have hbefore : before.find? (fun u => u.deletedAt.isNone && u.email == env.lower (env.lower email)) =
        none := by
      unfold World.userByEmail at hnone
      rw [husers, List.find?_append] at hnone
      exact (Option.or_eq_none_iff.mp hnone).1
    simp only [World.userByEmail, List.find?_append, List.find?_cons, hself, hbefore, Option.none_or]
  have htwin : Twin env email q { w with users := before ++ account :: after } w :=
    ⟨rfl, fun _ => .rfl, fun _ => .rfl, hothers, ⟨account, haccount, fun p hp => (hpassword p).mp hp⟩,
      hnone⟩
  exact htwin.answers hsame hguess

/-- Guesses at the account of Ada up to the lock and beyond, and a reset request for it. -/
def adaGuesses : List (Query × IssueDraws × String) :=
  [(.login "ada@example.com" "hunter2", plainDraws .one, "x1"),
    (.login "Ada@example.com" "hunter3", plainDraws .one, "x1"),
    (.login "ada@example.com" "hunter4", plainDraws .one, "x1"),
    (.wait 60, plainDraws .one, "x1"),
    (.login "ada@example.com" "hunter5", plainDraws .one, "x1"),
    (.login "ada@example.com" "hunter6", plainDraws .one, "x1"),
    (.login "ada@example.com" "hunter7", plainDraws .one, "x1"),
    (.forgotPassword "ada@example.com", plainDraws .one, "x1")]

theorem existence_not_revealed_guesses :
    List.Forall₂ Response.Alike
      (answers saltedEnv { adaAlone with
        users := [{ ada with passwordHash := saltedEnv.hash "correct horse" "s0" }] } adaGuesses)
      (answers saltedEnv { adaAlone with users := [] } adaGuesses) :=
  existence_not_revealed saltedEnv saltedEnv_lower { adaAlone with users := [] }
    { ada with passwordHash := saltedEnv.hash "correct horse" "s0" } [] [] rfl "ada@example.com"
    "correct horse" (by decide +kernel) rfl (fun p => saltedEnv_verify p "correct horse" "s0") rfl
    adaGuesses adaGuesses rfl (by
      intro address p hmem _
      simp only [adaGuesses, List.map_cons, List.map_nil, List.mem_cons, List.not_mem_nil, or_false,
        Query.login.injEq, reduceCtorEq, false_or] at hmem
      rcases hmem with ⟨-, rfl⟩ | ⟨-, rfl⟩ | ⟨-, rfl⟩ | ⟨-, rfl⟩ | ⟨-, rfl⟩ | ⟨-, rfl⟩ <;> decide)

example : (answers saltedEnv { adaAlone with users := [] } adaGuesses).map (·.status) =
    [401, 401, 401, 401, 401, 423, 200] := by decide +kernel

end TaskMgtApp.Auth
