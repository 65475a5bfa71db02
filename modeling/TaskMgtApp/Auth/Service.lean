import TaskMgtApp.Auth.Model

/-!
# The auth service, as program text

`AuthService` of `app/auth/service.py` with the token functions of
`app/core/security.py` it calls, and the request around it: `get_db` commits
after the endpoint has returned, or rolls back and raises again. Random draws
(`uuid.uuid4`, `secrets.token_urlsafe`, the salt of the hash) are arguments, so
that a run can say which draws are fresh.
-/
namespace TaskMgtApp.Auth

open TaskMgtApp.Common
open TaskMgtApp.Lib.Program
open TaskMgtApp.Lib.Program.Prog (perform)

/-- The `uuid4` draws of one token pair. `create_refresh_token` draws its own `jti`,
and `_create_token` another one that the extra claims overwrite. -/
structure IssueDraws where
  accessJti : UUID
  innerJti : UUID
  refreshJti : UUID
  deriving DecidableEq

/-- The draws of one registration. -/
structure RegisterDraws where
  userId : UUID
  salt : String
  token : String
  deriving DecidableEq

/-! ## Commands as expressions of the service -/

abbrev redisGet (key : String) : AuthM (Option String) := perform (Cmd.get key)
abbrev redisSet (key value : String) (ex : Nat) : AuthM Unit := perform (Cmd.set key value ex)
abbrev redisDelete (keys : Finset String) : AuthM Nat := perform (Cmd.delete keys)
abbrev redisTtl (key : String) : AuthM Int := perform (Cmd.ttl key)
abbrev redisIncr (key : String) : AuthM Int := perform (Cmd.incr key)
abbrev redisExpire (key : String) (seconds : Nat) : AuthM Bool := perform (Cmd.expire key seconds)
abbrev redisSadd (key member : String) : AuthM Nat := perform (Cmd.sadd key member)
abbrev redisSrem (key member : String) : AuthM Nat := perform (Cmd.srem key member)
abbrev redisSmembers (key : String) : AuthM (Finset String) := perform (Cmd.smembers key)
abbrev getById (id : UUID) : AuthM (Option User) := perform (Cmd.getById id)
abbrev getByEmail (email : String) : AuthM (Option User) := perform (Cmd.getByEmail email)
abbrev addUser (id : UUID) (email passwordHash fullName : String) : AuthM User :=
  perform (Cmd.add id email passwordHash fullName)
abbrev assignEmailVerified (user : User) : AuthM Unit := perform (Cmd.assignEmailVerified user)
abbrev assignPasswordHash (user : User) (hash : String) : AuthM Unit :=
  perform (Cmd.assignPasswordHash user hash)
abbrev commit : AuthM Unit := perform Cmd.commit
abbrev rollback : AuthM Unit := perform Cmd.rollback
abbrev utcNow : AuthM Nat := perform Cmd.utcNow
abbrev decodeToken (token : String) : AuthM Claims := perform (Cmd.decodeToken token)
abbrev respond (tokens : List String) : AuthM Unit := perform (Cmd.respond tokens)

/-- `uuid.UUID(s)` as an expression that may raise. -/
def uuidOf (s : String) : AuthM UUID :=
  match UUID.parse s with
  | some u => pure u
  | none => throw .valueError

section Service
variable (env : Env)

/-! ## `app/core/security.py` -/

/-- `_create_token`; `extraClaims` is what `payload.update(extra_claims)` does. -/
def createToken (subject : String) (tokenType : TokenType) (expiresDelta : Nat) (uuid4 : UUID)
    (extraClaims : Option (Claims → Claims)) : AuthM String := do
  let now ← utcNow
  let payload : Claims :=
    { sub := subject, type := tokenType, iat := now, exp := now + expiresDelta, jti := uuid4.str }
  return env.encode ((extraClaims.getD id) payload)

def createAccessToken (userId : UUID) (uuid4 : UUID) : AuthM String :=
  createToken env userId.str .access (env.settings.accessTokenExpireMinutes * 60) uuid4 none

/-- Returns (token, jti). -/
def createRefreshToken (userId : UUID) (jti inner : UUID) : AuthM (String × String) := do
  let token ← createToken env userId.str .refresh env.settings.refreshSeconds inner
    (some fun payload => { payload with jti := jti.str })
  return (token, jti.str)

/-! ## `AuthService` -/

/-- `_issue_token_pair`. -/
def issueTokenPair (userId : UUID) (d : IssueDraws) : AuthM (String × String) := do
  let accessToken ← createAccessToken env userId d.accessJti
  let (refreshToken, jti) ← createRefreshToken env userId d.refreshJti d.innerJti
  let _ ← redisSet (refreshTokenKey jti) userId.str env.settings.refreshSeconds
  let _ ← redisSadd (userTokensKey userId) jti
  return (accessToken, refreshToken)

/-- `_revoke_all_refresh_tokens`. -/
def revokeAllRefreshTokens (userId : UUID) : AuthM Unit := do
  let jtis ← redisSmembers (userTokensKey userId)
  let _ ← if jtis = ∅ then pure 0 else redisDelete (jtis.image refreshTokenKey)
  let _ ← redisDelete {userTokensKey userId}
  return ()

/-- Returns (user, verification_token). -/
def register (email password fullName : String) (d : RegisterDraws) : AuthM (User × String) := do
  let normalizedEmail := env.lower email
  let existing ← getByEmail normalizedEmail
  if existing.isSome then
    throw (.emailAlreadyRegisteredError "An account with this email already exists.")
  else
    let user ← addUser d.userId normalizedEmail (env.hash password d.salt) fullName
    let _ ← redisSet (emailVerifyKey d.token) user.id.str
      (env.settings.emailVerificationTtlHours * 3600)
    return (user, d.token)

def verifyEmail (token : String) : AuthM Unit := do
  let key := emailVerifyKey token
  match ← redisGet key with
  | none => throw (.invalidTokenError "Verification link is invalid or has expired.")
  | some userId =>
    let id ← uuidOf userId
    match ← getById id with
    | none => throw (.invalidTokenError "Verification link is invalid or has expired.")
    | some user =>
      let _ ← assignEmailVerified user
      let _ ← redisDelete {key}
      return ()

/-- `_register_failed_attempt`. -/
def registerFailedAttempt (email : String) : AuthM Unit := do
  let count ← redisIncr (loginAttemptsKey email)
  let _ ← redisExpire (loginAttemptsKey email) env.settings.lockoutSeconds
  if (env.settings.loginMaxAttempts : Int) ≤ count then
    let _ ← redisSet (loginLockKey email) "1" env.settings.lockoutSeconds
    let _ ← redisDelete {loginAttemptsKey email}
    return ()
  else
    return ()

/-- The account `login` lets past the credential check. -/
def credentialsValid (password : String) (user : User) : Bool :=
  env.verify password user.passwordHash && user.isActive

/-- Returns (access_token, refresh_token). -/
def login (email password : String) (d : IssueDraws) : AuthM (String × String) := do
  let normalizedEmail := env.lower email
  let lockTtl ← redisTtl (loginLockKey normalizedEmail)
  if 0 < lockTtl then
    throw (.accountLockedError "Too many failed login attempts. Try again later." lockTtl)
  else
    let user ← getByEmail normalizedEmail
    match user.filter (credentialsValid env password) with
    | none =>
      registerFailedAttempt env normalizedEmail
      throw (.invalidCredentialsError "Invalid email or password.")
    | some user =>
      if user.isEmailVerified = false then
        throw (.emailNotVerifiedError "Please verify your email before logging in.")
      else
        let _ ← redisDelete {loginAttemptsKey normalizedEmail, loginLockKey normalizedEmail}
        issueTokenPair env user.id d

/-- Returns None if the email isn't registered. -/
def requestPasswordReset (email : String) (token : String) : AuthM (Option (User × String)) := do
  match ← getByEmail (env.lower email) with
  | none => return none
  | some user =>
    let _ ← redisSet (pwdResetKey token) user.id.str (env.settings.passwordResetTtlMinutes * 60)
    return some (user, token)

def resetPassword (token newPassword salt : String) : AuthM Unit := do
  let key := pwdResetKey token
  match ← redisGet key with
  | none => throw (.invalidTokenError "Reset link is invalid or has expired.")
  | some userId =>
    let id ← uuidOf userId
    match ← getById id with
    | none => throw (.invalidTokenError "Reset link is invalid or has expired.")
    | some user =>
      let _ ← assignPasswordHash user (env.hash newPassword salt)
      let _ ← redisDelete {key}
      revokeAllRefreshTokens user.id

/-- The message of every refused refresh token. -/
def refreshTokenMessage : String := "Refresh token is invalid or has expired."

/-- `_decode_refresh_token`. -/
def decodeRefreshToken (refreshToken : String) : AuthM Claims := do
  let payload ← tryCatch (decodeToken refreshToken) fun
    | .pyJWTError => throw (.invalidTokenError refreshTokenMessage)
    | exc => throw exc
  if payload.type ≠ .refresh then throw (.invalidTokenError refreshTokenMessage)
  else return payload

def refreshAccessToken (refreshToken : String) (d : IssueDraws) : AuthM (String × String) := do
  let payload ← decodeRefreshToken refreshToken
  let storedUserId ← redisGet (refreshTokenKey payload.jti)
  if storedUserId ≠ some payload.sub then throw (.invalidTokenError refreshTokenMessage)
  else
    let _ ← redisDelete {refreshTokenKey payload.jti}
    let userId ← uuidOf payload.sub
    let _ ← redisSrem (userTokensKey userId) payload.jti
    issueTokenPair env userId d

def logout (refreshToken : String) : AuthM Unit := do
  let payload ← tryCatch
    (do
      let payload ← decodeRefreshToken refreshToken
      return some payload)
    fun
    | .invalidTokenError _ => return none
    | exc => throw exc
  match payload with
  | none => return ()
  | some payload =>
    let _ ← redisDelete {refreshTokenKey payload.jti}
    let userId ← uuidOf payload.sub
    let _ ← redisSrem (userTokensKey userId) payload.jti
    return ()

/-! ## Requests -/

/-- `get_db` around the body of a request. -/
def getDb {α : Type} (body : AuthM α) : AuthM α :=
  tryCatch
    (do
      let result ← body
      let _ ← commit
      return result)
    fun exc => do
      let _ ← rollback
      throw exc

/-- The operations of the service, with their arguments and draws. -/
inductive Request where
  | register (email password fullName : String) (d : RegisterDraws)
  | verifyEmail (token : String)
  | login (email password : String) (d : IssueDraws)
  | requestPasswordReset (email token : String)
  | resetPassword (token newPassword salt : String)
  | refreshAccessToken (refreshToken : String) (d : IssueDraws)
  | logout (refreshToken : String)
  deriving DecidableEq

/-- What an operation returns. -/
inductive Reply where
  | registered (user : User) (verificationToken : String)
  | none
  | tokenPair (accessToken refreshToken : String)
  | resetRequested (result : Option (User × String))
  deriving DecidableEq

/-- Send a token pair to the client. -/
def respondPair (pair : String × String) : AuthM Reply := do
  let _ ← respond [pair.1, pair.2]
  return .tokenPair pair.1 pair.2

/-- A request from its first command to its response. -/
def Request.program : Request → AuthM Reply
  | .register email password fullName d => do
      let (user, token) ← getDb (Auth.register env email password fullName d)
      return .registered user token
  | .verifyEmail token => do
      getDb (Auth.verifyEmail token)
      return .none
  | .login email password d => do
      let pair ← getDb (Auth.login env email password d)
      respondPair pair
  | .requestPasswordReset email token => do
      let result ← getDb (Auth.requestPasswordReset env email token)
      return .resetRequested result
  | .resetPassword token newPassword salt => do
      getDb (Auth.resetPassword env token newPassword salt)
      return .none
  | .refreshAccessToken refreshToken d => do
      let pair ← getDb (Auth.refreshAccessToken env refreshToken d)
      respondPair pair
  | .logout refreshToken => do
      getDb (Auth.logout refreshToken)
      return .none

/-- Serve one request to its end with nothing beside it. -/
def serve (w : World) (r : Request) : Except Exc Reply × World :=
  let (result, _, w') := (r.program env).run (exec env) ([], w)
  (result, w')

end Service

end TaskMgtApp.Auth
