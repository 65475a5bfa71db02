import TaskMgtApp.Auth.Serial

/-!
# The responses of the auth routes

What `app/auth/router.py` makes of the result of the service, and the handlers of
`app/main.py` of its exceptions. The `request_id` of an error body, a fresh random
value, is left out.
-/
namespace TaskMgtApp.Auth

open TaskMgtApp.Common

/-- `UserRead`. -/
structure UserRead where
  id : UUID
  email : String
  fullName : String
  isEmailVerified : Bool
  isActive : Bool
  createdAt : Nat
  deriving DecidableEq

def UserRead.ofUser (user : User) : UserRead where
  id := user.id
  email := user.email
  fullName := user.fullName
  isEmailVerified := user.isEmailVerified
  isActive := user.isActive
  createdAt := user.createdAt

inductive Body where
  | empty
  | user (user : UserRead)
  | message (message : String)
  | tokenPair (accessToken refreshToken : String)
  | error (error message : String)
  /-- The list of what does not fit the schema, which is not modelled. -/
  | detail
  /-- The plain text of a response to an unhandled exception. -/
  | text (text : String)
  deriving DecidableEq

structure Response where
  status : Nat
  /-- The `Retry-After` header. -/
  retryAfter : Option Int
  body : Body
  deriving DecidableEq

/-- `_make_handler(http_status)`, for the exception class `name`. -/
def handler (httpStatus : Nat) (name message : String) (retryAfter : Option Int) : Response where
  status := httpStatus
  retryAfter := retryAfter
  body := .error name message

/-- The response to an exception: `_EXCEPTION_STATUS_MAP`, the handler of FastAPI for a
request that does not fit its schema, and for all others that of the server. -/
def Exc.response : Exc → Response
  | .projectNotFoundError message => handler 404 "ProjectNotFoundError" message none
  | .taskNotFoundError message => handler 404 "TaskNotFoundError" message none
  | .emailAlreadyRegisteredError message => handler 409 "EmailAlreadyRegisteredError" message none
  | .invalidCredentialsError message => handler 401 "InvalidCredentialsError" message none
  | .invalidTokenError message => handler 400 "InvalidTokenError" message none
  | .emailNotVerifiedError message => handler 403 "EmailNotVerifiedError" message none
  | .accountLockedError message retryAfterSeconds =>
      handler 423 "AccountLockedError" message (some retryAfterSeconds)
  | .requestValidationError => ⟨422, none, .detail⟩
  | .pyJWTError | .valueError | .redisError | .dbError | .responseValidationError =>
      ⟨500, none, .text "Internal Server Error"⟩

/-- What the route of a request answers. -/
def Request.respond (r : Request) : Except Exc Reply → Response
  | .error exc => Exc.response exc
  | .ok (.registered user _) => ⟨201, none, .user (.ofUser user)⟩
  | .ok (.tokenPair accessToken refreshToken) => ⟨200, none, .tokenPair accessToken refreshToken⟩
  | .ok (.resetRequested _) =>
      ⟨200, none, .message "If an account with that email exists, a reset link has been sent."⟩
  | .ok .none =>
      match r with
      | .logout _ => ⟨204, none, .empty⟩
      | .resetPassword _ _ _ => ⟨200, none, .message "Password reset successfully."⟩
      | _ => ⟨200, none, .message "Email verified successfully."⟩

/-- Two responses alike, but for the tokens in them. -/
def Response.Alike (a b : Response) : Prop :=
  a.status = b.status ∧ a.retryAfter = b.retryAfter ∧
    (a.body = b.body ∨ (∃ x y, a.body = .tokenPair x y) ∧ ∃ x y, b.body = .tokenPair x y)

theorem Response.Alike.rfl {a : Response} : a.Alike a := ⟨Eq.refl _, Eq.refl _, .inl (Eq.refl _)⟩

end TaskMgtApp.Auth
