import TaskMgtApp.Common
import TaskMgtApp.Lib.ExpiringStore

/-!
# The state of the auth module and its atomic commands

A request sees the clock, the Redis store, the committed rows of `users` and the
tokens that have left the app. Its own database session holds what it has
flushed or assigned and not committed. One command is one atomic step: one Redis
command, one statement, one reading of the clock, one call of `jwt.decode`.

The libraries are parameters (`Env`). `jwt.decode` is modelled under the
assumption that tokens are unforgeable: it accepts a string only if the app has
handed that string out and its `exp` lies ahead. The clock never goes back, so
the `iat` check of PyJWT never fails.
-/
namespace TaskMgtApp.Auth

open TaskMgtApp.Common
open TaskMgtApp.Lib.Program (Prog)
open TaskMgtApp.Lib.ExpiringStore (Store Cell)

/-! ## Data -/

inductive TokenType where
  | access
  | refresh
  deriving DecidableEq

/-- The payload of a JWT. -/
structure Claims where
  sub : String
  type : TokenType
  iat : Nat
  exp : Nat
  jti : String
  deriving DecidableEq

/-- A row of `users`. -/
structure User where
  id : UUID
  email : String
  passwordHash : String
  fullName : String
  isEmailVerified : Bool
  isActive : Bool
  createdAt : Nat
  updatedAt : Nat
  deletedAt : Option Nat
  deriving DecidableEq

/-- The configured settings and the library functions the service calls. The hash
takes its random salt as an argument. -/
structure Env where
  settings : Settings
  lower : String → String
  hash : (raw salt : String) → String
  verify : (raw hash : String) → Bool
  encode : Claims → String
  decode : String → Option Claims
  decode_encode : ∀ p, decode (encode p) = some p

/-- A Redis string; Redis keeps one that reads as a number in its integer encoding. -/
inductive Value where
  | text (s : String)
  | num (n : Int)
  deriving DecidableEq

namespace Value

def str : Value → String
  | text s => s
  | num n => toString n

/-- What `INCR` reads. -/
def toInt? : Value → Option Int
  | text s => s.toInt?
  | num n => some n

@[simp] theorem str_text (s : String) : (text s).str = s := rfl
@[simp] theorem toInt?_num (n : Int) : (num n).toInt? = some n := rfl

end Value

abbrev Redis := Store String Value String

/-! ## Redis keys -/

def emailVerifyKey (token : String) : String := "email_verify:" ++ token
def loginLockKey (email : String) : String := "login_lock:" ++ email
def loginAttemptsKey (email : String) : String := "login_attempts:" ++ email
def pwdResetKey (token : String) : String := "pwd_reset:" ++ token
def refreshTokenKey (jti : String) : String := "refresh_token:" ++ jti
def userTokensKey (userId : UUID) : String := "user_refresh_tokens:" ++ userId.str

/-! ## State -/

/-- A change a session makes to `users`: a flushed INSERT, or an assignment to an
attribute of a loaded row, which the flush turns into an UPDATE of that column. -/
inductive UserWrite where
  | insert (row : User)
  | emailVerified (loaded : User)
  | passwordHash (loaded : User) (hash : String)
  deriving DecidableEq

/-- The database session of one request, in the order of its writes. -/
abbrev Session := List UserWrite

structure World where
  now : Nat
  redis : Redis
  users : List User
  /-- Tokens sent to a client in a response. -/
  issued : List String

namespace UserWrite

/-- One row after the write is committed at second `now`. An assignment of the
loaded value emits no UPDATE, any other also moves `updated_at`. -/
def applyRow (now : Nat) (row : User) : UserWrite → User
  | insert _ => row
  | emailVerified u =>
      if row.id = u.id ∧ u.isEmailVerified = false then
        { row with isEmailVerified := true, updatedAt := now }
      else row
  | passwordHash u h =>
      if row.id = u.id ∧ u.passwordHash ≠ h then
        { row with passwordHash := h, updatedAt := now }
      else row

/-- The table after the write is committed at second `now`. -/
def apply (now : Nat) (users : List User) : UserWrite → List User
  | insert row => users ++ [row]
  | write => users.map fun row => applyRow now row write

end UserWrite

/-- The rows a session reads: the committed ones and those it has flushed itself. -/
def visibleRows (l : Session) (w : World) : List User :=
  w.users ++ l.filterMap fun
    | .insert row => some row
    | _ => none

/-- Whether a `varchar(n)` column takes the string. -/
def fits (n : Nat) (s : String) : Bool := s.length ≤ n && !s.toList.contains (Char.ofNat 0)

/-! ## Commands -/

inductive Cmd where
  | get (key : String)
  | set (key value : String) (ex : Nat)
  | delete (keys : Finset String)
  | ttl (key : String)
  | incr (key : String)
  | expire (key : String) (seconds : Nat)
  | sadd (key member : String)
  | srem (key member : String)
  | smembers (key : String)
  | getById (id : UUID)
  | getByEmail (email : String)
  | add (id : UUID) (email passwordHash fullName : String)
  | assignEmailVerified (user : User)
  | assignPasswordHash (user : User) (hash : String)
  | commit
  | rollback
  | utcNow
  | decodeToken (token : String)
  | respond (tokens : List String)
  deriving DecidableEq

/-- The value a command returns. -/
abbrev Cmd.Val : Cmd → Type
  | .get _ => Option String
  | .set _ _ _ => Unit
  | .delete _ => Nat
  | .ttl _ => Int
  | .incr _ => Int
  | .expire _ _ => Bool
  | .sadd _ _ => Nat
  | .srem _ _ => Nat
  | .smembers _ => Finset String
  | .getById _ => Option User
  | .getByEmail _ => Option User
  | .add _ _ _ _ => User
  | .assignEmailVerified _ => Unit
  | .assignPasswordHash _ _ => Unit
  | .commit => Unit
  | .rollback => Unit
  | .utcNow => Nat
  | .decodeToken _ => Claims
  | .respond _ => Unit

/-- A piece of service code. -/
abbrev AuthM := Prog Cmd.Val Exc

abbrev State := Session × World

namespace World

/-- The row `INSERT` writes, with the defaults of the model and of the table. -/
def newUser (w : World) (id : UUID) (email passwordHash fullName : String) : User where
  id := id
  email := email
  passwordHash := passwordHash
  fullName := fullName
  isEmailVerified := false
  isActive := true
  createdAt := w.now
  updatedAt := w.now
  deletedAt := none

/-- What the `users` table takes: text the columns hold, a new primary key, and
under `ix_users_email_active` no second active row with the same email. -/
def accepts (rows : List User) (u : User) : Bool :=
  fits 320 u.email && fits 255 u.fullName &&
    rows.all fun row => row.id ≠ u.id && !(row.deletedAt.isNone && row.email == u.email)

/-- `jwt.decode` of a string, with the signature, the format and `exp` checked. -/
def decodeToken (env : Env) (w : World) (token : String) : Option Claims :=
  if token ∈ w.issued then (env.decode token).filter fun p => w.now < p.exp else none

end World

/-- One atomic command of a session. -/
def exec (env : Env) : (c : Cmd) → State → Except Exc c.Val × State
  | .get k, (l, w) => (.ok ((w.redis.get w.now k).map Value.str), l, w)
  | .set k v ex, (l, w) => (.ok (), l, { w with redis := w.redis.setEx w.now k (.text v) ex })
  | .delete ks, (l, w) =>
      (.ok (w.redis.delete w.now ks).1, l, { w with redis := (w.redis.delete w.now ks).2 })
  | .ttl k, (l, w) => (.ok (w.redis.ttl w.now k), l, w)
  | .incr k, (l, w) =>
      match w.redis.incr Value.toInt? Value.num w.now k with
      | some (n, redis) => (.ok n, l, { w with redis := redis })
      | none => (.error .redisError, l, w)
  | .expire k seconds, (l, w) =>
      (.ok (w.redis.expire w.now k seconds).1, l,
        { w with redis := (w.redis.expire w.now k seconds).2 })
  | .sadd k m, (l, w) =>
      (.ok (w.redis.sadd k m).1, l, { w with redis := (w.redis.sadd k m).2 })
  | .srem k m, (l, w) =>
      (.ok (w.redis.srem k m).1, l, { w with redis := (w.redis.srem k m).2 })
  | .smembers k, (l, w) => (.ok (w.redis.smembers k), l, w)
  | .getById id, (l, w) =>
      (.ok ((visibleRows l w).find? fun u => u.deletedAt.isNone && u.id == id), l, w)
  | .getByEmail email, (l, w) =>
      (.ok ((visibleRows l w).find? fun u => u.deletedAt.isNone && u.email == env.lower email), l, w)
  | .add id email passwordHash fullName, (l, w) =>
      let row := w.newUser id email passwordHash fullName
      if World.accepts (visibleRows l w) row then (.ok row, l ++ [.insert row], w)
      else (.error .dbError, l, w)
  | .assignEmailVerified u, (l, w) => (.ok (), l ++ [.emailVerified u], w)
  | .assignPasswordHash u h, (l, w) => (.ok (), l ++ [.passwordHash u h], w)
  | .commit, (l, w) => (.ok (), [], { w with users := l.foldl (UserWrite.apply w.now) w.users })
  | .rollback, (_, w) => (.ok (), [], w)
  | .utcNow, (l, w) => (.ok w.now, l, w)
  | .decodeToken token, (l, w) =>
      match w.decodeToken env token with
      | some p => (.ok p, l, w)
      | none => (.error .pyJWTError, l, w)
  | .respond tokens, (l, w) => (.ok (), l, { w with issued := tokens ++ w.issued })

/-! ## The key families are apart -/

/-- Strings that differ within their first `n` characters stay apart whatever follows. -/
theorem append_ne {p q : String} (n : Nat) (hp : n ≤ p.toList.length) (hq : n ≤ q.toList.length)
    (h : p.toList.take n ≠ q.toList.take n) (a b : String) : p ++ a ≠ q ++ b := by
  intro he
  have ht := congrArg (fun s : String => s.toList.take n) he
  simp only [String.toList_append, List.take_append_of_le_length hp,
    List.take_append_of_le_length hq] at ht
  exact h ht

section Keys
variable (a b : String) (u v : UUID)

@[simp] theorem emailVerifyKey_inj : emailVerifyKey a = emailVerifyKey b ↔ a = b :=
  String.append_right_inj _
@[simp] theorem loginLockKey_inj : loginLockKey a = loginLockKey b ↔ a = b :=
  String.append_right_inj _
@[simp] theorem loginAttemptsKey_inj : loginAttemptsKey a = loginAttemptsKey b ↔ a = b :=
  String.append_right_inj _
@[simp] theorem pwdResetKey_inj : pwdResetKey a = pwdResetKey b ↔ a = b :=
  String.append_right_inj _
@[simp] theorem refreshTokenKey_inj : refreshTokenKey a = refreshTokenKey b ↔ a = b :=
  String.append_right_inj _
@[simp] theorem userTokensKey_inj : userTokensKey u = userTokensKey v ↔ u = v :=
  (String.append_right_inj _).trans UUID.str_inj

@[simp] theorem emailVerifyKey_ne :
    (∀ b, emailVerifyKey a ≠ loginLockKey b) ∧ (∀ b, emailVerifyKey a ≠ loginAttemptsKey b) ∧
    (∀ b, emailVerifyKey a ≠ pwdResetKey b) ∧ (∀ b, emailVerifyKey a ≠ refreshTokenKey b) ∧
    (∀ v, emailVerifyKey a ≠ userTokensKey v) := by
  refine ⟨fun _ => ?_, fun _ => ?_, fun _ => ?_, fun _ => ?_, fun _ => ?_⟩
  all_goals exact append_ne 8 (by decide) (by decide) (by decide) _ _

@[simp] theorem loginLockKey_ne :
    (∀ b, loginLockKey a ≠ emailVerifyKey b) ∧ (∀ b, loginLockKey a ≠ loginAttemptsKey b) ∧
    (∀ b, loginLockKey a ≠ pwdResetKey b) ∧ (∀ b, loginLockKey a ≠ refreshTokenKey b) ∧
    (∀ v, loginLockKey a ≠ userTokensKey v) := by
  refine ⟨fun _ => ?_, fun _ => ?_, fun _ => ?_, fun _ => ?_, fun _ => ?_⟩
  all_goals exact append_ne 8 (by decide) (by decide) (by decide) _ _

@[simp] theorem loginAttemptsKey_ne :
    (∀ b, loginAttemptsKey a ≠ emailVerifyKey b) ∧ (∀ b, loginAttemptsKey a ≠ loginLockKey b) ∧
    (∀ b, loginAttemptsKey a ≠ pwdResetKey b) ∧ (∀ b, loginAttemptsKey a ≠ refreshTokenKey b) ∧
    (∀ v, loginAttemptsKey a ≠ userTokensKey v) := by
  refine ⟨fun _ => ?_, fun _ => ?_, fun _ => ?_, fun _ => ?_, fun _ => ?_⟩
  all_goals exact append_ne 8 (by decide) (by decide) (by decide) _ _

@[simp] theorem pwdResetKey_ne :
    (∀ b, pwdResetKey a ≠ emailVerifyKey b) ∧ (∀ b, pwdResetKey a ≠ loginLockKey b) ∧
    (∀ b, pwdResetKey a ≠ loginAttemptsKey b) ∧ (∀ b, pwdResetKey a ≠ refreshTokenKey b) ∧
    (∀ v, pwdResetKey a ≠ userTokensKey v) := by
  refine ⟨fun _ => ?_, fun _ => ?_, fun _ => ?_, fun _ => ?_, fun _ => ?_⟩
  all_goals exact append_ne 8 (by decide) (by decide) (by decide) _ _

@[simp] theorem refreshTokenKey_ne :
    (∀ b, refreshTokenKey a ≠ emailVerifyKey b) ∧ (∀ b, refreshTokenKey a ≠ loginLockKey b) ∧
    (∀ b, refreshTokenKey a ≠ loginAttemptsKey b) ∧ (∀ b, refreshTokenKey a ≠ pwdResetKey b) ∧
    (∀ v, refreshTokenKey a ≠ userTokensKey v) := by
  refine ⟨fun _ => ?_, fun _ => ?_, fun _ => ?_, fun _ => ?_, fun _ => ?_⟩
  all_goals exact append_ne 8 (by decide) (by decide) (by decide) _ _

@[simp] theorem userTokensKey_ne :
    (∀ b, userTokensKey u ≠ emailVerifyKey b) ∧ (∀ b, userTokensKey u ≠ loginLockKey b) ∧
    (∀ b, userTokensKey u ≠ loginAttemptsKey b) ∧ (∀ b, userTokensKey u ≠ pwdResetKey b) ∧
    (∀ b, userTokensKey u ≠ refreshTokenKey b) := by
  refine ⟨fun _ => ?_, fun _ => ?_, fun _ => ?_, fun _ => ?_, fun _ => ?_⟩
  all_goals exact append_ne 8 (by decide) (by decide) (by decide) _ _

end Keys

end TaskMgtApp.Auth
