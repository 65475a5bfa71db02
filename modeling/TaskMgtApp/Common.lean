import TaskMgtApp.Lib.Program

/-!
# Identifiers, settings and exceptions

What every part of the application shares: `uuid.UUID`, the settings of
`app/core/config.py` that some function reads, and the exceptions a request can
end with. The settings are those with positive windows and lifetimes: Redis
refuses `EX 0`, and a threshold of zero is no threshold.
-/
namespace TaskMgtApp.Common

/-! ## UUIDs -/

def isHexDigit (c : Char) : Bool := c.isDigit || ('a' ≤ c && c ≤ 'f')

/-- The 8-4-4-4-12 lower-case spelling that `str(uuid)` writes. -/
def isCanonical (s : String) : Bool :=
  s.toList.length == 36 &&
    s.toList.zipIdx.all fun (c, i) => if i ∈ [8, 13, 18, 23] then c == '-' else isHexDigit c

/-- A `uuid.UUID`, by its canonical text. -/
structure UUID where
  str : String
  canonical : isCanonical str = true
  deriving DecidableEq

/-- `uuid.UUID(s)`. The constructor also reads other spellings, but the app only
hands it strings that it wrote with `str`. -/
def UUID.parse (s : String) : Option UUID :=
  if h : isCanonical s = true then some ⟨s, h⟩ else none

@[simp] theorem UUID.str_inj {u v : UUID} : u.str = v.str ↔ u = v := by
  constructor
  · intro h
    cases u
    cases v
    simpa using h
  · intro h
    rw [h]

@[simp] theorem UUID.parse_str (u : UUID) : UUID.parse u.str = some u := by
  simp [UUID.parse, u.canonical]

theorem UUID.parse_eq_some {s : String} {u : UUID} : UUID.parse s = some u ↔ s = u.str := by
  constructor
  · intro h
    unfold UUID.parse at h
    split at h
    · obtain rfl := Option.some.inj h
      rfl
    · cases h
  · rintro rfl
    exact UUID.parse_str u

inductive Digit where
  | zero
  | one
  | two
  | three
  deriving DecidableEq

def Digit.text : Digit → String
  | zero => "0"
  | one => "1"
  | two => "2"
  | three => "3"

/-- Sixteen UUIDs, told apart by the last two digits. -/
def plainUuid (a b : Digit) : UUID :=
  ⟨"00000000-0000-4000-8000-0000000000" ++ a.text ++ b.text,
    by cases a <;> cases b <;> decide +kernel⟩

/-! ## Settings -/

/-- `Settings`, the fields the auth service reads. -/
structure Settings where
  accessTokenExpireMinutes : Nat
  refreshTokenExpireDays : Nat
  loginMaxAttempts : Nat
  loginLockoutMinutes : Nat
  emailVerificationTtlHours : Nat
  passwordResetTtlMinutes : Nat
  refresh_pos : 0 < refreshTokenExpireDays
  attempts_pos : 0 < loginMaxAttempts
  lockout_pos : 0 < loginLockoutMinutes
  verification_pos : 0 < emailVerificationTtlHours
  reset_pos : 0 < passwordResetTtlMinutes

/-- The defaults of `app/core/config.py`. -/
def Settings.default : Settings where
  accessTokenExpireMinutes := 15
  refreshTokenExpireDays := 7
  loginMaxAttempts := 5
  loginLockoutMinutes := 15
  emailVerificationTtlHours := 24
  passwordResetTtlMinutes := 30
  refresh_pos := by decide
  attempts_pos := by decide
  lockout_pos := by decide
  verification_pos := by decide
  reset_pos := by decide

/-- `lockout_seconds`, the lifetime of the lock and of the attempt counter. -/
def Settings.lockoutSeconds (s : Settings) : Nat := s.loginLockoutMinutes * 60

/-- The lifetime of a refresh token, of the JWT and of its Redis key alike. -/
def Settings.refreshSeconds (s : Settings) : Nat := s.refreshTokenExpireDays * 86400

theorem Settings.lockoutSeconds_pos (s : Settings) : 0 < s.lockoutSeconds :=
  Nat.mul_pos s.lockout_pos (by decide)

theorem Settings.refreshSeconds_pos (s : Settings) : 0 < s.refreshSeconds :=
  Nat.mul_pos s.refresh_pos (by decide)

/-! ## Exceptions -/

/-- The domain errors of `app/common/exceptions.py` that some service raises, and
the library errors that can leave a handler. -/
inductive Exc where
  | projectNotFoundError (message : String)
  | taskNotFoundError (message : String)
  | emailAlreadyRegisteredError (message : String)
  | invalidCredentialsError (message : String)
  | accountLockedError (message : String) (retryAfterSeconds : Int)
  | emailNotVerifiedError (message : String)
  | invalidTokenError (message : String)
  /-- `jwt.PyJWTError`. -/
  | pyJWTError
  /-- `ValueError`, of `uuid.UUID` on a malformed string. -/
  | valueError
  /-- `redis.exceptions.RedisError`. -/
  | redisError
  /-- A statement or a commit that the database refuses. -/
  | dbError
  /-- `RequestValidationError`: the request does not fit the schema of its endpoint. -/
  | requestValidationError
  /-- `ResponseValidationError`: the result does not fit the response model. -/
  | responseValidationError
  deriving DecidableEq

end TaskMgtApp.Common
