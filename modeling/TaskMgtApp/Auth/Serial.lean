import TaskMgtApp.Auth.Service

/-!
# One request at a time

Each service function, run to its end with nothing beside it, as one equation:
which lookups decide the outcome, and what is written. The equations are the
only place where the program text is unfolded for a serial run.
-/
namespace TaskMgtApp.Auth

open TaskMgtApp.Common
open TaskMgtApp.Lib.Program TaskMgtApp.Lib.Program.Prog
open TaskMgtApp.Lib.ExpiringStore (Store)

namespace World

/-- The active account with this id. -/
def userById (w : World) (id : UUID) : Option User :=
  w.users.find? fun u => u.deletedAt.isNone && u.id == id

/-- The active account `get_by_email` finds. -/
def userByEmail (env : Env) (w : World) (email : String) : Option User :=
  w.users.find? fun u => u.deletedAt.isNone && u.email == env.lower email

/-- The claims of a token that `_decode_refresh_token` lets through. -/
def refreshClaims (env : Env) (w : World) (token : String) : Option Claims :=
  (w.decodeToken env token).filter fun p => p.type = .refresh

/-- The text under a key. -/
def text (w : World) (key : String) : Option String := (w.redis.get w.now key).map Value.str

/-- The pair `_issue_token_pair` makes at the present second. -/
def tokenPair (env : Env) (w : World) (userId : UUID) (d : IssueDraws) : String × String :=
  (env.encode ⟨userId.str, .access, w.now,
    w.now + env.settings.accessTokenExpireMinutes * 60, d.accessJti.str⟩,
   env.encode ⟨userId.str, .refresh, w.now, w.now + env.settings.refreshSeconds, d.refreshJti.str⟩)

/-- The store after a token pair has been recorded. -/
def recordToken (env : Env) (w : World) (userId : UUID) (d : IssueDraws) : Redis :=
  ((w.redis.setEx w.now (refreshTokenKey d.refreshJti.str) (.text userId.str)
    env.settings.refreshSeconds).sadd (userTokensKey userId) d.refreshJti.str).2

/-- The store after every token indexed for the user has been revoked. -/
def revokeAll (w : World) (userId : UUID) : Redis :=
  ((w.redis.delete w.now ((w.redis.smembers (userTokensKey userId)).image refreshTokenKey)).2.delete
    w.now {userTokensKey userId}).2

/-- The store after a failed attempt has been counted, unless the counter is no number. -/
def failedAttempt (env : Env) (w : World) (email : String) : Option Redis :=
  (w.redis.incr Value.toInt? Value.num w.now (loginAttemptsKey email)).map fun (count, redis) =>
    let redis := (redis.expire w.now (loginAttemptsKey email) env.settings.lockoutSeconds).2
    if (env.settings.loginMaxAttempts : Int) ≤ count then
      ((redis.setEx w.now (loginLockKey email) (.text "1") env.settings.lockoutSeconds).delete w.now
        {loginAttemptsKey email}).2
    else redis

end World

theorem World.id_of_userById {w : World} {id : UUID} {user : User}
    (h : w.userById id = some user) : user.id = id := by
  have hp := List.find?_some h
  simp only [Bool.and_eq_true, beq_iff_eq] at hp
  exact hp.2

/-- What `_decode_refresh_token` lets through is a refresh token the app handed out. -/
theorem issued_of_refreshClaims {env : Env} {w : World} {T : String} {p : Claims}
    (h : w.refreshClaims env T = some p) :
    T ∈ w.issued ∧ env.decode T = some p ∧ p.type = .refresh := by
  unfold World.refreshClaims World.decodeToken at h
  by_cases hi : T ∈ w.issued
  · simp only [hi, if_true, Option.filter_eq_some_iff, decide_eq_true_eq] at h
    exact ⟨hi, h.1.1, h.2⟩
  · simp [hi] at h

/-- Counting a failed attempt writes the counter and the lock of that email only. -/
theorem failedAttempt_look {env : Env} {w : World} {email : String} {redis : Redis}
    (h : w.failedAttempt env email = some redis) (t : Nat) {k : String}
    (ha : k ≠ loginAttemptsKey email) (hl : k ≠ loginLockKey email) :
    redis.look t k = w.redis.look t k := by
  obtain ⟨⟨count, r⟩, hi, rfl⟩ := Option.map_eq_some_iff.mp h
  have hr := Store.look_incr_of_ne t w.now hi ha
  dsimp only
  split <;> simp [ha, hl, Store.look_expire_of_ne, hr]

theorem failedAttempt_sets {env : Env} {w : World} {email : String} {redis : Redis}
    (h : w.failedAttempt env email = some redis) {k : String} (ha : k ≠ loginAttemptsKey email) :
    redis.sets k = w.redis.sets k := by
  obtain ⟨⟨count, r⟩, hi, rfl⟩ := Option.map_eq_some_iff.mp h
  have hr := Store.sets_incr w.now hi
  dsimp only
  split <;> simp [ha, hr]

section Runs
variable (env : Env) (l : Session) (w : World)

theorem run_getDb {α : Type} (body : AuthM α) :
    (getDb body).run (exec env) (l, w) =
      match body.run (exec env) (l, w) with
      | (.ok a, l', w') =>
        (.ok a, [], { w' with users := l'.foldl (UserWrite.apply w'.now) w'.users })
      | (.error e, _, w') => (.error e, [], w') := by
  simp only [getDb, run_catch, run_bind]
  rcases body.run (exec env) (l, w) with ⟨r | r, l', w'⟩ <;> simp [exec]

theorem run_issueTokenPair (userId : UUID) (d : IssueDraws) :
    (issueTokenPair env userId d).run (exec env) (l, w) =
      (.ok (w.tokenPair env userId d), l, { w with redis := w.recordToken env userId d }) := by
  simp [issueTokenPair, createAccessToken, createRefreshToken, createToken, run_call, exec,
    World.tokenPair, World.recordToken]

theorem run_revokeAllRefreshTokens (userId : UUID) :
    (revokeAllRefreshTokens userId).run (exec env) (l, w) =
      (.ok (), l, { w with redis := w.revokeAll userId }) := by
  by_cases h : w.redis.sets (userTokensKey userId) = ∅
  · have hd : w.redis = (w.redis.delete w.now ∅).2 := by
      simp [Store.delete]
    simp only [revokeAllRefreshTokens, World.revokeAll, Store.smembers, h,
      Finset.image_empty]
    conv_rhs => rw [← hd]
    simp [run_call, exec, Store.smembers, h]
  · simp [revokeAllRefreshTokens, run_call, exec, World.revokeAll,
      Store.smembers, h]

theorem run_decodeRefreshToken (token : String) :
    (decodeRefreshToken token).run (exec env) (l, w) =
      (match w.refreshClaims env token with
        | some p => .ok p
        | none => .error (.invalidTokenError refreshTokenMessage), l, w) := by
  simp only [decodeRefreshToken, run_bind, run_catch, run_perform, exec, World.refreshClaims]
  cases w.decodeToken env token with
  | none => simp
  | some p => by_cases hp : p.type = .refresh <;> simp [Option.filter, hp]

theorem run_refreshAccessToken (token : String) (d : IssueDraws) :
    (refreshAccessToken env token d).run (exec env) (l, w) =
      match (w.refreshClaims env token).filter fun p =>
        w.text (refreshTokenKey p.jti) = some p.sub with
      | none => (.error (.invalidTokenError refreshTokenMessage), l, w)
      | some p =>
        let deleted := (w.redis.delete w.now {refreshTokenKey p.jti}).2
        match UUID.parse p.sub with
        | none => (.error .valueError, l, { w with redis := deleted })
        | some u => (issueTokenPair env u d).run (exec env)
            (l, { w with redis := (deleted.srem (userTokensKey u) p.jti).2 }) := by
  simp only [refreshAccessToken, run_bind, run_decodeRefreshToken]
  cases w.refreshClaims env token with
  | none => simp
  | some p =>
    by_cases hg : w.text (refreshTokenKey p.jti) = some p.sub
    · have hg' := hg
      unfold World.text at hg'
      cases hu : UUID.parse p.sub <;> simp [hg, hg', hu, Option.filter, run_call, exec, uuidOf]
    · have hg' := hg
      unfold World.text at hg'
      simp [hg, hg', Option.filter, exec]

theorem run_logout (token : String) :
    (logout token).run (exec env) (l, w) =
      match w.refreshClaims env token with
      | none => (.ok (), l, w)
      | some p =>
        let deleted := (w.redis.delete w.now {refreshTokenKey p.jti}).2
        match UUID.parse p.sub with
        | none => (.error .valueError, l, { w with redis := deleted })
        | some u => (.ok (), l, { w with redis := (deleted.srem (userTokensKey u) p.jti).2 }) := by
  simp only [logout, run_bind, run_catch, run_decodeRefreshToken]
  cases w.refreshClaims env token with
  | none => simp
  | some p => cases hu : UUID.parse p.sub <;> simp [hu, run_call, exec, uuidOf]

theorem run_registerFailedAttempt (email : String) :
    (registerFailedAttempt env email).run (exec env) (l, w) =
      match w.failedAttempt env email with
      | none => (.error .redisError, l, w)
      | some redis => (.ok (), l, { w with redis := redis }) := by
  simp only [registerFailedAttempt, World.failedAttempt]
  cases hi : w.redis.incr Value.toInt? Value.num w.now (loginAttemptsKey email) with
  | none => simp [run_call, exec, hi]
  | some r =>
    obtain ⟨count, redis⟩ := r
    by_cases hc : (env.settings.loginMaxAttempts : Int) ≤ count <;>
      simp [run_call, exec, hi, hc]

end Runs

/-! ## Requests -/

section Requests
variable (env : Env) (w : World)

theorem serve_register (email password fullName : String) (d : RegisterDraws) :
    serve env w (.register email password fullName d) =
      match w.userByEmail env (env.lower email) with
      | some _ => (.error (.emailAlreadyRegisteredError
          "An account with this email already exists."), w)
      | none =>
        let row := w.newUser d.userId (env.lower email) (env.hash password d.salt) fullName
        if World.accepts w.users row then
          (.ok (.registered row d.token),
            { w with
              redis := w.redis.setEx w.now (emailVerifyKey d.token) (.text row.id.str)
                (env.settings.emailVerificationTtlHours * 3600)
              users := w.users ++ [row] })
        else (.error .dbError, w) := by
  have hv : visibleRows [] w = w.users := by simp [visibleRows]
  simp only [serve, Request.program, run_bind, run_getDb, World.userByEmail]
  cases hu : w.users.find? fun u => u.deletedAt.isNone && u.email == env.lower (env.lower email) with
  | some u => simp [register, run_call, exec, hv, hu]
  | none =>
    by_cases ha : World.accepts w.users
        (w.newUser d.userId (env.lower email) (env.hash password d.salt) fullName) = true
    · simp [register, run_call, exec, hv, hu, ha, UserWrite.apply]
    · simp [register, run_call, exec, hv, hu, ha]

theorem serve_verifyEmail (token : String) :
    serve env w (.verifyEmail token) =
      match w.text (emailVerifyKey token) with
      | none => (.error (.invalidTokenError "Verification link is invalid or has expired."), w)
      | some userId =>
        match UUID.parse userId with
        | none => (.error .valueError, w)
        | some id =>
          match w.userById id with
          | none => (.error (.invalidTokenError "Verification link is invalid or has expired."), w)
          | some user =>
            (.ok .none,
              { w with
                redis := (w.redis.delete w.now {emailVerifyKey token}).2
                users := w.users.map fun row => (UserWrite.emailVerified user).applyRow w.now row }) := by
  have hv : visibleRows [] w = w.users := by simp [visibleRows]
  simp only [serve, Request.program, run_bind, run_getDb, World.text, World.userById]
  cases hg : (w.redis.get w.now (emailVerifyKey token)).map Value.str with
  | none => simp [verifyEmail, run_call, exec, hg]
  | some userId =>
    cases hp : UUID.parse userId with
    | none => simp [verifyEmail, run_call, exec, hg, uuidOf, hp]
    | some id =>
      cases hu : w.users.find? fun u => u.deletedAt.isNone && u.id == id with
      | none => simp [verifyEmail, run_call, exec, hg, uuidOf, hp, hv, hu]
      | some user => simp [verifyEmail, run_call, exec, hg, uuidOf, hp, hv, hu, UserWrite.apply]

theorem serve_login (email password : String) (d : IssueDraws) :
    serve env w (.login email password d) =
      let e := env.lower email
      if 0 < w.redis.ttl w.now (loginLockKey e) then
        (.error (.accountLockedError "Too many failed login attempts. Try again later."
          (w.redis.ttl w.now (loginLockKey e))), w)
      else
        match (w.userByEmail env e).filter (credentialsValid env password) with
        | none =>
          match w.failedAttempt env e with
          | none => (.error .redisError, w)
          | some redis =>
            (.error (.invalidCredentialsError "Invalid email or password."),
              { w with redis := redis })
        | some user =>
          if user.isEmailVerified = false then
            (.error (.emailNotVerifiedError "Please verify your email before logging in."), w)
          else
            let w' := { w with
              redis := (w.redis.delete w.now {loginAttemptsKey e, loginLockKey e}).2 }
            let pair := w.tokenPair env user.id d
            (.ok (.tokenPair pair.1 pair.2),
              { w' with
                redis := w'.recordToken env user.id d
                issued := pair.1 :: pair.2 :: w.issued }) := by
  have hv : visibleRows [] w = w.users := by simp [visibleRows]
  simp only [serve, Request.program, run_bind, run_getDb, World.userByEmail, login]
  by_cases hl : 0 < w.redis.ttl w.now (loginLockKey (env.lower email))
  · simp [hl, exec]
  · cases hu : (w.users.find? fun u => u.deletedAt.isNone && u.email == env.lower (env.lower email)).filter
        (credentialsValid env password) with
    | none =>
      cases hf : w.failedAttempt env (env.lower email) <;>
        simp [hl, run_call, exec, hv, hu, run_bind, run_registerFailedAttempt, hf]
    | some user =>
      cases hver : user.isEmailVerified with
      | false => simp [hl, run_call, exec, hv, hu, hver]
      | true =>
        simp [hl, run_call, exec, hv, hu, hver, run_issueTokenPair, respondPair, World.tokenPair]

theorem serve_requestPasswordReset (email token : String) :
    serve env w (.requestPasswordReset email token) =
      match w.userByEmail env (env.lower email) with
      | none => (.ok (.resetRequested none), w)
      | some user =>
        (.ok (.resetRequested (some (user, token))),
          { w with
            redis := w.redis.setEx w.now (pwdResetKey token) (.text user.id.str)
              (env.settings.passwordResetTtlMinutes * 60) }) := by
  have hv : visibleRows [] w = w.users := by simp [visibleRows]
  simp only [serve, Request.program, run_bind, run_getDb, World.userByEmail]
  cases hu : w.users.find? fun u => u.deletedAt.isNone && u.email == env.lower (env.lower email) <;>
    simp [requestPasswordReset, run_call, exec, hv, hu]

theorem serve_resetPassword (token newPassword salt : String) :
    serve env w (.resetPassword token newPassword salt) =
      match w.text (pwdResetKey token) with
      | none => (.error (.invalidTokenError "Reset link is invalid or has expired."), w)
      | some userId =>
        match UUID.parse userId with
        | none => (.error .valueError, w)
        | some id =>
          match w.userById id with
          | none => (.error (.invalidTokenError "Reset link is invalid or has expired."), w)
          | some user =>
            let w' := { w with redis := (w.redis.delete w.now {pwdResetKey token}).2 }
            (.ok .none,
              { w' with
                redis := w'.revokeAll user.id
                users := w.users.map fun row =>
                  (UserWrite.passwordHash user (env.hash newPassword salt)).applyRow w.now row }) := by
  have hv : visibleRows [] w = w.users := by simp [visibleRows]
  simp only [serve, Request.program, run_bind, run_getDb, World.text, World.userById]
  cases hg : (w.redis.get w.now (pwdResetKey token)).map Value.str with
  | none => simp [resetPassword, run_call, exec, hg]
  | some userId =>
    cases hp : UUID.parse userId with
    | none => simp [resetPassword, run_call, exec, hg, uuidOf, hp]
    | some id =>
      cases hu : w.users.find? fun u => u.deletedAt.isNone && u.id == id with
      | none => simp [resetPassword, run_call, exec, hg, uuidOf, hp, hv, hu]
      | some user =>
        simp [resetPassword, run_call, exec, hg, uuidOf, hp, hv, hu, run_revokeAllRefreshTokens,
          UserWrite.apply]

/-- The claims of a refresh token that is accepted now: it decodes, and its Redis
key holds its subject. -/
def World.acceptedClaims (token : String) : Option Claims :=
  (w.refreshClaims env token).filter fun p => w.text (refreshTokenKey p.jti) = some p.sub

theorem acceptedClaims_eq_some_iff {token : String} {p : Claims} :
    w.acceptedClaims env token = some p ↔
      w.refreshClaims env token = some p ∧ w.text (refreshTokenKey p.jti) = some p.sub := by
  simp [World.acceptedClaims, Option.filter_eq_some_iff]

/-- A token the app made and handed out is accepted while its key is there. -/
theorem acceptedClaims_encode {w : World} {p : Claims} (hissued : env.encode p ∈ w.issued)
    (hexp : w.now < p.exp) (htype : p.type = .refresh)
    (htext : w.text (refreshTokenKey p.jti) = some p.sub) :
    w.acceptedClaims env (env.encode p) = some p := by
  rw [acceptedClaims_eq_some_iff]
  refine ⟨?_, htext⟩
  simp [World.refreshClaims, World.decodeToken, hissued, env.decode_encode, hexp, htype]

theorem serve_refreshAccessToken (token : String) (d : IssueDraws) :
    serve env w (.refreshAccessToken token d) =
      match w.acceptedClaims env token with
      | none => (.error (.invalidTokenError refreshTokenMessage), w)
      | some p =>
        let deleted := (w.redis.delete w.now {refreshTokenKey p.jti}).2
        match UUID.parse p.sub with
        | none => (.error .valueError, { w with redis := deleted })
        | some u =>
          let w' := { w with redis := (deleted.srem (userTokensKey u) p.jti).2 }
          let pair := w.tokenPair env u d
          (.ok (.tokenPair pair.1 pair.2),
            { w' with
              redis := w'.recordToken env u d
              issued := pair.1 :: pair.2 :: w.issued }) := by
  simp only [serve, Request.program, run_bind, run_getDb, run_refreshAccessToken,
    World.acceptedClaims]
  cases (w.refreshClaims env token).filter fun p => w.text (refreshTokenKey p.jti) = some p.sub with
  | none => simp
  | some p =>
    cases hu : UUID.parse p.sub with
    | none => simp [hu]
    | some u => simp [hu, run_issueTokenPair, respondPair, run_call, exec, World.tokenPair]

theorem serve_logout (token : String) :
    serve env w (.logout token) =
      match w.refreshClaims env token with
      | none => (.ok .none, w)
      | some p =>
        let deleted := (w.redis.delete w.now {refreshTokenKey p.jti}).2
        match UUID.parse p.sub with
        | none => (.error .valueError, { w with redis := deleted })
        | some u => (.ok .none, { w with redis := (deleted.srem (userTokensKey u) p.jti).2 }) := by
  simp only [serve, Request.program, run_bind, run_getDb, run_logout]
  cases w.refreshClaims env token with
  | none => simp
  | some p => cases hu : UUID.parse p.sub <;> simp [hu]

end Requests

/-! ## All that one request can do -/

/-- The outcomes of a request and the world each one leaves, with the lookups that
led there. -/
inductive Effect (env : Env) (w : World) : Request → Except Exc Reply → World → Prop
  | refused (r : Request) (e : Exc) (hr : ∀ token, r ≠ .logout token) : Effect env w r (.error e) w
  | registered (email password fullName : String) (d : RegisterDraws)
      (hnone : w.userByEmail env (env.lower email) = none)
      (haccepts : World.accepts w.users
        (w.newUser d.userId (env.lower email) (env.hash password d.salt) fullName) = true) :
      Effect env w (.register email password fullName d)
        (.ok (.registered
          (w.newUser d.userId (env.lower email) (env.hash password d.salt) fullName) d.token))
        { w with
          redis := w.redis.setEx w.now (emailVerifyKey d.token) (.text d.userId.str)
            (env.settings.emailVerificationTtlHours * 3600)
          users := w.users ++
            [w.newUser d.userId (env.lower email) (env.hash password d.salt) fullName] }
  | verified (token : String) (userId : UUID) (user : User)
      (htext : w.text (emailVerifyKey token) = some userId.str)
      (huser : w.userById userId = some user) :
      Effect env w (.verifyEmail token) (.ok .none)
        { w with
          redis := (w.redis.delete w.now {emailVerifyKey token}).2
          users := w.users.map fun row => (UserWrite.emailVerified user).applyRow w.now row }
  | attemptFailed (email password : String) (d : IssueDraws) (redis : Redis)
      (hlock : ¬ 0 < w.redis.ttl w.now (loginLockKey (env.lower email)))
      (huser : (w.userByEmail env (env.lower email)).filter (credentialsValid env password) = none)
      (hfailed : w.failedAttempt env (env.lower email) = some redis) :
      Effect env w (.login email password d)
        (.error (.invalidCredentialsError "Invalid email or password.")) { w with redis := redis }
  | loggedIn (email password : String) (d : IssueDraws) (user : User)
      (hlock : ¬ 0 < w.redis.ttl w.now (loginLockKey (env.lower email)))
      (huser : (w.userByEmail env (env.lower email)).filter (credentialsValid env password) =
        some user) (hverified : user.isEmailVerified = true) :
      Effect env w (.login email password d)
        (.ok (.tokenPair (w.tokenPair env user.id d).1 (w.tokenPair env user.id d).2))
        { w with
          redis := World.recordToken env { w with
            redis := (w.redis.delete w.now
              {loginAttemptsKey (env.lower email), loginLockKey (env.lower email)}).2 } user.id d
          issued := (w.tokenPair env user.id d).1 :: (w.tokenPair env user.id d).2 :: w.issued }
  | unknownEmail (email token : String) (hnone : w.userByEmail env (env.lower email) = none) :
      Effect env w (.requestPasswordReset email token) (.ok (.resetRequested none)) w
  | resetRequested (email token : String) (user : User)
      (huser : w.userByEmail env (env.lower email) = some user) :
      Effect env w (.requestPasswordReset email token) (.ok (.resetRequested (some (user, token))))
        { w with
          redis := w.redis.setEx w.now (pwdResetKey token) (.text user.id.str)
            (env.settings.passwordResetTtlMinutes * 60) }
  | reset (token newPassword salt : String) (userId : UUID) (user : User)
      (htext : w.text (pwdResetKey token) = some userId.str)
      (huser : w.userById userId = some user) :
      Effect env w (.resetPassword token newPassword salt) (.ok .none)
        { w with
          redis := World.revokeAll { w with
            redis := (w.redis.delete w.now {pwdResetKey token}).2 } user.id
          users := w.users.map fun row =>
            (UserWrite.passwordHash user (env.hash newPassword salt)).applyRow w.now row }
  | refreshed (token : String) (d : IssueDraws) (p : Claims) (u : UUID)
      (hclaims : w.acceptedClaims env token = some p) (hsub : p.sub = u.str) :
      Effect env w (.refreshAccessToken token d)
        (.ok (.tokenPair (w.tokenPair env u d).1 (w.tokenPair env u d).2))
        { w with
          redis := World.recordToken env { w with
            redis := ((w.redis.delete w.now {refreshTokenKey p.jti}).2.srem
              (userTokensKey u) p.jti).2 } u d
          issued := (w.tokenPair env u d).1 :: (w.tokenPair env u d).2 :: w.issued }
  | loggedOut (token : String) (p : Claims) (u : UUID)
      (hclaims : w.refreshClaims env token = some p) (hsub : p.sub = u.str) :
      Effect env w (.logout token) (.ok .none)
        { w with
          redis := ((w.redis.delete w.now {refreshTokenKey p.jti}).2.srem
            (userTokensKey u) p.jti).2 }
  | alreadyLoggedOut (token : String) (hclaims : w.refreshClaims env token = none) :
      Effect env w (.logout token) (.ok .none) w
  | malformedSubject (r : Request) (token : String) (p : Claims)
      (hclaims : w.refreshClaims env token = some p) (hsub : UUID.parse p.sub = none) :
      Effect env w r (.error .valueError)
        { w with redis := (w.redis.delete w.now {refreshTokenKey p.jti}).2 }

theorem serve_effect (env : Env) (w : World) (r : Request) :
    Effect env w r (serve env w r).1 (serve env w r).2 := by
  cases r with
  | register email password fullName d =>
    rw [serve_register]
    cases hu : w.userByEmail env (env.lower email) with
    | some _ => exact .refused _ _ (by simp)
    | none =>
      dsimp only
      split
      · rename_i ha
        exact .registered email password fullName d hu ha
      · exact .refused _ _ (by simp)
  | verifyEmail token =>
    rw [serve_verifyEmail]
    cases ht : w.text (emailVerifyKey token) with
    | none => exact .refused _ _ (by simp)
    | some userId =>
      cases hp : UUID.parse userId with
      | none =>
        simp only [hp]
        exact .refused _ _ (by simp)
      | some id =>
        cases hu : w.userById id with
        | none =>
          simp only [hp, hu]
          exact .refused _ _ (by simp)
        | some user =>
          simp only [hp, hu]
          exact .verified token id user (UUID.parse_eq_some.mp hp ▸ ht) hu
  | login email password d =>
    rw [serve_login]
    dsimp only
    split
    · exact .refused _ _ (by simp)
    · rename_i hl
      cases hu : (w.userByEmail env (env.lower email)).filter (credentialsValid env password) with
      | none =>
        cases hf : w.failedAttempt env (env.lower email) with
        | none => exact .refused _ _ (by simp)
        | some redis => exact .attemptFailed email password d redis hl hu hf
      | some user =>
        dsimp only
        split
        · exact .refused _ _ (by simp)
        · rename_i hv
          exact .loggedIn email password d user hl hu (by simpa using hv)
  | requestPasswordReset email token =>
    rw [serve_requestPasswordReset]
    cases hu : w.userByEmail env (env.lower email) with
    | none => exact .unknownEmail email token hu
    | some user => exact .resetRequested email token user hu
  | resetPassword token newPassword salt =>
    rw [serve_resetPassword]
    cases ht : w.text (pwdResetKey token) with
    | none => exact .refused _ _ (by simp)
    | some userId =>
      cases hp : UUID.parse userId with
      | none =>
        simp only [hp]
        exact .refused _ _ (by simp)
      | some id =>
        cases hu : w.userById id with
        | none =>
          simp only [hp, hu]
          exact .refused _ _ (by simp)
        | some user =>
          simp only [hp, hu]
          exact .reset token newPassword salt id user (UUID.parse_eq_some.mp hp ▸ ht) hu
  | refreshAccessToken token d =>
    rw [serve_refreshAccessToken]
    cases hc : w.acceptedClaims env token with
    | none => exact .refused _ _ (by simp)
    | some p =>
      cases hp : UUID.parse p.sub with
      | none =>
        simp only [hp]
        exact .malformedSubject _ token p ((acceptedClaims_eq_some_iff env w).mp hc).1 hp
      | some u =>
        simp only [hp]
        exact .refreshed token d p u hc (UUID.parse_eq_some.mp hp)
  | logout token =>
    rw [serve_logout]
    cases hc : w.refreshClaims env token with
    | none => exact .alreadyLoggedOut token hc
    | some p =>
      cases hp : UUID.parse p.sub with
      | none =>
        simp only [hp]
        exact .malformedSubject _ token p hc hp
      | some u =>
        simp only [hp]
        exact .loggedOut token p u hc (UUID.parse_eq_some.mp hp)

end TaskMgtApp.Auth
