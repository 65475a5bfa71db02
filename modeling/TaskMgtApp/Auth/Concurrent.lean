import TaskMgtApp.Auth.Serial
import TaskMgtApp.Lib.Interleaving

/-!
# Requests side by side

Any number of requests, each cut into its atomic commands, over one world in
which seconds pass. What a request does to refresh tokens is said once, by the
moves between its phases; `program_obeys` checks every request against them. The
results on races reason about the moves and never unfold a program.
-/
namespace TaskMgtApp.Auth

open TaskMgtApp.Common
open TaskMgtApp.Lib.Program TaskMgtApp.Lib.Program.Prog
open TaskMgtApp.Lib.Interleaving
open TaskMgtApp.Lib.ExpiringStore (Store)

def machine (env : Env) : Machine Cmd.Val Exc Session World Nat where
  exec := exec env
  drift seconds w := { w with now := w.now + seconds }

abbrev Threads (ι : Type) := Config Cmd.Val Exc Reply Session World ι

theorem world_issue {ι : Type} [DecidableEq ι] (env : Env) (c : Threads ι) (i : ι) (cmd : Cmd)
    (k : Except Exc cmd.Val → AuthM Reply) :
    (c.issue (machine env) i cmd k).world =
      (exec env cmd ((c.threads i).locals, c.world)).2.2 := rfl

/-- Every request before its first command. -/
def beside {ι : Type} (env : Env) (w : World) (requests : ι → Request) : Threads ι where
  world := w
  threads i := ⟨[], (requests i).program env⟩
  log := []

/-! ## Phases -/

/-- The draws of the token pair a request may issue. -/
def Request.draws : Request → Option IssueDraws
  | .login _ _ d | .refreshAccessToken _ d => some d
  | _ => none

/-- How far a request has come with refresh tokens. -/
inductive Phase where
  /-- Before its check, or bound to end without a token. -/
  | idle
  /-- A login whose credentials did not pass. -/
  | rejected
  /-- A refresh whose token has been decoded. -/
  | presenting (p : Claims)
  /-- A refresh that has seen the key of its token. -/
  | holding (p : Claims)
  /-- A refresh that has deleted the key. -/
  | spending (p : Claims) (u : UUID)
  /-- Bound to issue a token of `u`. -/
  | issuing (u : UUID)
  /-- The key of the new token is set, the index does not list it yet. -/
  | recording (u : UUID)
  | issued (u : UUID)
  /-- A logout whose token has been decoded. -/
  | leaving (p : Claims)
  /-- A logout that has deleted the key. -/
  | unlisting (p : Claims) (u : UUID)
  /-- A reset whose token names the user `u`. -/
  | seeking (u : UUID)
  /-- A reset that has loaded the row of its user. -/
  | resetting (user : User)
  /-- A reset that has assigned the new hash. -/
  | assigned (u : UUID)
  /-- A reset that has read the index. -/
  | dropping (u : UUID) (jtis : Finset String)
  /-- A reset that has deleted the keys it read in the index. -/
  | unindexing (u : UUID)
  /-- A reset that has only its commit ahead. -/
  | closing (u : UUID)
  | closed (u : UUID)
  /-- Ends with the `ValueError` of a subject that is no UUID. -/
  | malformed

/-- A request that only ever writes rows of `users`. -/
def Request.writesUsers : Request → Prop
  | .register .. | .verifyEmail .. => True
  | _ => False

def Request.isLogin : Request → Prop
  | .login .. => True
  | _ => False

/-- The keys a request sets beside those of refresh tokens. -/
def Request.sets : Request → String → Prop
  | .register _ _ _ d, k => k = emailVerifyKey d.token
  | .login .., k => ∃ e, k = loginLockKey e
  | .requestPasswordReset _ token, k => k = pwdResetKey token
  | _, _ => False

/-- A command of the request that touches no refresh token, no index and no token
handed out, and is neither the read that decides a login nor the commit of a reset. -/
def Cmd.quiet (r : Request) : Cmd → Prop
  | .set k _ _ => r.sets k
  | .incr k | .expire k _ => ∃ e, k = loginAttemptsKey e
  | .delete ks => ∀ k ∈ ks, (∀ j, k ≠ refreshTokenKey j) ∧ ∀ u, k ≠ userTokensKey u
  | .sadd .. | .srem .. | .respond .. | .assignPasswordHash .. => False
  | .add .. | .assignEmailVerified .. => r.writesUsers
  | .getByEmail .. => ¬ r.isLogin
  | .commit => ∀ x newPassword salt, r ≠ .resetPassword x newPassword salt
  | _ => True

/-- A request sets no key of a refresh token where it is quiet. -/
theorem Request.sets_ne {r : Request} {k : String} (h : r.sets k) (j : String) :
    k ≠ refreshTokenKey j := by
  cases r with
  | register email password fullName d => simp [show k = _ from h]
  | login email password d =>
    obtain ⟨e, rfl⟩ := h
    simp
  | requestPasswordReset email token => simp [show k = _ from h]
  | _ => cases h

/-- The claims of a refresh token minted by the request `r` for `u`. -/
structure MintedBy (r : Request) (u : UUID) (p : Claims) : Prop where
  type : p.type = .refresh
  sub : p.sub = u.str
  jti : ∃ d, r.draws = some d ∧ p.jti = d.refreshJti.str

/-- The moves of a request: the phase it is in, the command it issues and the
state the command meets, and the next phase. -/
inductive Move (env : Env) (r : Request) : Phase → Cmd → State → Phase → Prop
  | quiet {c : Cmd} {s : State} (hc : c.quiet r) : Move env r .idle c s .idle
  | reject {e : String} {s : State} (hr : r.isLogin) : Move env r .idle (.getByEmail e) s .rejected
  | quietRejected {c : Cmd} {s : State} (hc : c.quiet r) : Move env r .rejected c s .rejected
  | checked {email password : String} {d : IssueDraws} {l : Session} {w : World} {user : User}
      (hr : r = .login email password d)
      (hfound : (visibleRows l w).find? (fun u =>
        u.deletedAt.isNone && u.email == env.lower (env.lower email)) = some user)
      (hvalid : credentialsValid env password user = true) (hverified : user.isEmailVerified = true) :
      Move env r .idle (.getByEmail (env.lower email)) (l, w) (.issuing user.id)
  | cleared {u : UUID} {e : String} {s : State} :
      Move env r (.issuing u) (.delete {loginAttemptsKey e, loginLockKey e}) s (.issuing u)
  | clock {u : UUID} {s : State} : Move env r (.issuing u) .utcNow s (.issuing u)
  | set {u : UUID} {d : IssueDraws} {s : State} (hd : r.draws = some d) :
      Move env r (.issuing u)
        (.set (refreshTokenKey d.refreshJti.str) u.str env.settings.refreshSeconds) s (.recording u)
  | sadd {u : UUID} {d : IssueDraws} {s : State} (hd : r.draws = some d) :
      Move env r (.recording u) (.sadd (userTokensKey u) d.refreshJti.str) s (.issued u)
  | commitIssued {u : UUID} {s : State} : Move env r (.issued u) .commit s (.issued u)
  | respond {u : UUID} {a T : String} {p q : Claims} {s : State} (ha : env.decode a = some p)
      (haccess : p.type = .access) (hT : env.decode T = some q) (hminted : MintedBy r u q)
      (hsub : p.sub = u.str) :
      Move env r (.issued u) (.respond [a, T]) s (.issued u)
  | present {T : String} {d : IssueDraws} {l : Session} {w : World} {p : Claims}
      (hr : r = .refreshAccessToken T d) (hp : w.refreshClaims env T = some p) :
      Move env r .idle (.decodeToken T) (l, w) (.presenting p)
  | pass {l : Session} {w : World} {p : Claims} (hp : w.text (refreshTokenKey p.jti) = some p.sub) :
      Move env r (.presenting p) (.get (refreshTokenKey p.jti)) (l, w) (.holding p)
  | fail {l : Session} {w : World} {p : Claims} (hp : w.text (refreshTokenKey p.jti) ≠ some p.sub) :
      Move env r (.presenting p) (.get (refreshTokenKey p.jti)) (l, w) .idle
  | take {p : Claims} {u : UUID} {s : State} (hsub : p.sub = u.str) :
      Move env r (.holding p) (.delete {refreshTokenKey p.jti}) s (.spending p u)
  | spend {p : Claims} {u : UUID} {s : State} :
      Move env r (.spending p u) (.srem (userTokensKey u) p.jti) s (.issuing u)
  | leave {T : String} {l : Session} {w : World} {p : Claims} (hr : r = .logout T)
      (hp : w.refreshClaims env T = some p) :
      Move env r .idle (.decodeToken T) (l, w) (.leaving p)
  | drop {p : Claims} {u : UUID} {s : State} (hsub : p.sub = u.str) :
      Move env r (.leaving p) (.delete {refreshTokenKey p.jti}) s (.unlisting p u)
  | unlist {p : Claims} {u : UUID} {s : State} :
      Move env r (.unlisting p u) (.srem (userTokensKey u) p.jti) s .idle
  | takeMalformed {p : Claims} {s : State} (hsub : UUID.parse p.sub = none) :
      Move env r (.holding p) (.delete {refreshTokenKey p.jti}) s .malformed
  | dropMalformed {p : Claims} {s : State} (hsub : UUID.parse p.sub = none) :
      Move env r (.leaving p) (.delete {refreshTokenKey p.jti}) s .malformed
  | rollback {s : State} : Move env r .malformed .rollback s .malformed
  | seek {x newPassword salt : String} {l : Session} {w : World} {u : UUID}
      (hr : r = .resetPassword x newPassword salt) (hx : w.text (pwdResetKey x) = some u.str) :
      Move env r .idle (.get (pwdResetKey x)) (l, w) (.seeking u)
  | missing {u : UUID} {s : State} : Move env r (.seeking u) (.getById u) s .idle
  | found {l : Session} {w : World} {user : User}
      (hfound : (visibleRows l w).find? (fun row => row.deletedAt.isNone && row.id == user.id) =
        some user) : Move env r (.seeking user.id) (.getById user.id) (l, w) (.resetting user)
  | assign {x newPassword salt : String} {user : User} {s : State}
      (hr : r = .resetPassword x newPassword salt) :
      Move env r (.resetting user) (.assignPasswordHash user (env.hash newPassword salt)) s
        (.assigned user.id)
  | useResetToken {u : UUID} {x : String} {s : State} :
      Move env r (.assigned u) (.delete {pwdResetKey x}) s (.assigned u)
  | snapshot {u : UUID} {l : Session} {w : World} :
      Move env r (.assigned u) (.smembers (userTokensKey u)) (l, w)
        (.dropping u (w.redis.sets (userTokensKey u)))
  | dropAll {u : UUID} {jtis : Finset String} {s : State} :
      Move env r (.dropping u jtis) (.delete (jtis.image refreshTokenKey)) s (.unindexing u)
  | unindexEmpty {u : UUID} {s : State} :
      Move env r (.dropping u ∅) (.delete {userTokensKey u}) s (.closing u)
  | unindex {u : UUID} {s : State} :
      Move env r (.unindexing u) (.delete {userTokensKey u}) s (.closing u)
  | close {u : UUID} {s : State} : Move env r (.closing u) .commit s (.closed u)

/-- The phases in which a request may end, with the outcomes of each. -/
inductive Final (env : Env) (r : Request) : Phase → Except Exc Reply → Prop
  | refused {e : Exc}
      (he : ∀ T d, r = .refreshAccessToken T d → e = .invalidTokenError refreshTokenMessage) :
      Final env r .idle (.error e)
  | done {reply : Reply} (hreset : ∀ x newPassword salt, r ≠ .resetPassword x newPassword salt)
      (hrefresh : ∀ T d, r ≠ .refreshAccessToken T d) (hreply : ∀ a T, reply ≠ .tokenPair a T) :
      Final env r .idle (.ok reply)
  | issued {u : UUID} {a T : String} {q : Claims} (hT : env.decode T = some q)
      (hminted : MintedBy r u q) : Final env r (.issued u) (.ok (.tokenPair a T))
  | rejected {e : Exc} (hr : r.isLogin) : Final env r .rejected (.error e)
  | malformed : Final env r .malformed (.error .valueError)
  | closed {u : UUID} : Final env r (.closed u) (.ok .none)

/-! ## Every request keeps to its moves -/

section Obeys
variable {env : Env} {r : Request}

/-- `get_db`: the body, then its commit or its rollback. -/
theorem obeys_getDb {α : Type} {φ : Phase} {body : AuthM α} {F G : Phase → Except Exc α → Prop}
    (hbody : Obeys (exec env) (Move env r) F φ body)
    (hcommit : ∀ φ a s, F φ (.ok a) → ∃ φ', Move env r φ .commit s φ' ∧ G φ' (.ok a))
    (hrollback : ∀ φ e s, F φ (.error e) → ∃ φ', Move env r φ .rollback s φ' ∧ G φ' (.error e)) :
    Obeys (exec env) (Move env r) G φ (getDb body) := by
  unfold getDb
  apply Obeys.catch (F := fun φ o => (∃ a, o = .ok a ∧ G φ o) ∨ (∃ e, o = .error e ∧ F φ o))
  · apply hbody.bind
    · intro φ a ha s
      obtain ⟨φ', hm, hG⟩ := hcommit φ a s ha
      exact ⟨φ', hm, .inl ⟨a, rfl, hG⟩⟩
    · intro φ e he
      exact .inr ⟨e, rfl, he⟩
  · rintro φ a (⟨b, -, hG⟩ | ⟨e, he, -⟩)
    · exact hG
    · cases he
  · rintro φ e (⟨a, ha, -⟩ | ⟨e', -, hF⟩) s
    · cases ha
    · obtain ⟨φ', hm, hG⟩ := hrollback φ e s hF
      exact ⟨φ', hm, hG⟩

/-- A token pair of `u` has been made and its refresh token recorded. -/
structure PairIssued (env : Env) (r : Request) (u : UUID) (pair : String × String) : Prop where
  access : ∃ p, env.decode pair.1 = some p ∧ p.type = .access ∧ p.sub = u.str
  refresh : ∃ q, env.decode pair.2 = some q ∧ MintedBy r u q

/-- How the body of a login or a refresh may end. -/
inductive IssueEnd (env : Env) (r : Request) : Phase → Except Exc (String × String) → Prop
  | issued {u : UUID} {pair : String × String} (h : PairIssued env r u pair) :
      IssueEnd env r (.issued u) (.ok pair)
  | refused {e : Exc}
      (he : ∀ T d, r = .refreshAccessToken T d → e = .invalidTokenError refreshTokenMessage) :
      IssueEnd env r .idle (.error e)
  | rejected {e : Exc} (hr : r.isLogin) : IssueEnd env r .rejected (.error e)
  | malformed : IssueEnd env r .malformed (.error .valueError)

theorem issueTokenPair_obeys (u : UUID) {d : IssueDraws} (hd : r.draws = some d) :
    Obeys (exec env) (Move env r) (IssueEnd env r) (.issuing u) (issueTokenPair env u d) := by
  rintro ⟨l₁, w₁⟩
  refine ⟨_, .clock, ?_⟩
  rintro ⟨l₂, w₂⟩
  refine ⟨_, .clock, ?_⟩
  rintro ⟨l₃, w₃⟩
  refine ⟨_, .set hd, ?_⟩
  rintro ⟨l₄, w₄⟩
  refine ⟨_, .sadd hd, ?_⟩
  exact .issued ⟨⟨_, env.decode_encode _, rfl, rfl⟩, ⟨_, env.decode_encode _, rfl, rfl, d, hd, rfl⟩⟩

/-- A login or a refresh, given its body. -/
theorem issuing_request_obeys {body : AuthM (String × String)}
    (hbody : Obeys (exec env) (Move env r) (IssueEnd env r) .idle body) :
    Obeys (exec env) (Move env r) (Final env r) .idle (getDb body >>= respondPair) := by
  apply Obeys.bind (F := IssueEnd env r)
  · apply obeys_getDb hbody
    · rintro _ _ s ⟨h⟩
      exact ⟨_, .commitIssued, .issued h⟩
    · rintro _ _ s (_ | he | hr | _)
      · exact ⟨_, .quiet trivial, .refused he⟩
      · exact ⟨_, .quietRejected trivial, .rejected hr⟩
      · exact ⟨_, .rollback, .malformed⟩
  · rintro _ ⟨a, T⟩ ⟨⟨p, hp, haccess, hsub⟩, q, hq, hminted⟩ s
    exact ⟨_, .respond hp haccess hq hminted hsub, .issued hq hminted⟩
  · rintro _ _ (_ | he | hr | _)
    · exact .refused he
    · exact .rejected hr
    · exact .malformed

theorem sets_of_isLogin (hr : r.isLogin) (e : String) : r.sets (loginLockKey e) := by
  cases r with
  | login => exact ⟨e, rfl⟩
  | _ => cases hr

theorem registerFailedAttempt_obeys (hr : r.isLogin) (email : String) :
    Obeys (exec env) (Move env r) (fun φ _ => φ = .rejected) .rejected
      (registerFailedAttempt env email) := by
  simp only [registerFailedAttempt, perform_bind, obeys_call]
  intro s
  refine ⟨_, .quietRejected (by simp [Cmd.quiet]), ?_⟩
  cases (exec env (.incr (loginAttemptsKey email)) s).1 with
  | error e => exact rfl
  | ok count =>
    simp only [done_ok_bind, obeys_call]
    rintro ⟨l, w⟩
    refine ⟨_, .quietRejected (by simp [Cmd.quiet]), ?_⟩
    simp only [exec, done_ok_bind]
    split
    · simp only [obeys_call]
      intro s
      refine ⟨_, .quietRejected (sets_of_isLogin hr email), ?_⟩
      intro s
      exact ⟨_, .quietRejected (by simp [Cmd.quiet]), rfl⟩
    · exact rfl

theorem login_obeys (email password : String) (d : IssueDraws) :
    Obeys (exec env) (Move env (.login email password d)) (IssueEnd env (.login email password d))
      .idle (login env email password d) := by
  simp only [login, perform_bind, obeys_call]
  rintro ⟨l, w⟩
  refine ⟨_, .quiet trivial, ?_⟩
  simp only [exec, done_ok_bind]
  split
  · exact .refused (by simp)
  · simp only [obeys_call]
    rintro ⟨l, w⟩
    cases hu : ((visibleRows l w).find? fun u => u.deletedAt.isNone &&
        u.email == env.lower (env.lower email)).filter (credentialsValid env password) with
    | none =>
      refine ⟨_, .reject trivial, ?_⟩
      simp only [exec, done_ok_bind, hu]
      apply (registerFailedAttempt_obeys (r := .login email password d) trivial _).bind
      · rintro _ _ rfl
        exact .rejected trivial
      · rintro _ _ rfl
        exact .rejected trivial
    | some user =>
      obtain ⟨hfound, hvalid⟩ := Option.filter_eq_some_iff.mp hu
      by_cases hv : user.isEmailVerified = false
      · refine ⟨_, .reject trivial, ?_⟩
        simp only [exec, done_ok_bind, hu, hv, if_true]
        exact .rejected trivial
      · refine ⟨_, .checked rfl hfound hvalid (by simpa using hv), ?_⟩
        simp only [exec, done_ok_bind, hu, hv]
        intro s
        exact ⟨_, .cleared, issueTokenPair_obeys user.id rfl⟩

/-- `_decode_refresh_token`, by the phase it leads to. -/
theorem decodeRefreshToken_obeys {T : String} {φ : Claims → Phase}
    {F : Phase → Except Exc Claims → Prop}
    (hsome : ∀ l w p, w.refreshClaims env T = some p → Move env r .idle (.decodeToken T) (l, w) (φ p))
    (hF : ∀ p, F (φ p) (.ok p)) (hidle : F .idle (.error (.invalidTokenError refreshTokenMessage))) :
    Obeys (exec env) (Move env r) F .idle (decodeRefreshToken T) := by
  simp only [decodeRefreshToken, decodeToken, perform, call_catch, call_bind, obeys_call]
  rintro ⟨l, w⟩
  cases hd : w.decodeToken env T with
  | none =>
    refine ⟨_, .quiet trivial, ?_⟩
    simpa [exec, hd] using hidle
  | some p =>
    by_cases hp : p.type = .refresh
    · refine ⟨_, hsome l w p (by simp [World.refreshClaims, hd, Option.filter, hp]), ?_⟩
      simpa [exec, hd, hp] using hF p
    · refine ⟨_, .quiet trivial, ?_⟩
      simpa [exec, hd, hp] using hidle

theorem refreshAccessToken_obeys (T : String) (d : IssueDraws) :
    Obeys (exec env) (Move env (.refreshAccessToken T d)) (IssueEnd env (.refreshAccessToken T d))
      .idle (refreshAccessToken env T d) := by
  unfold refreshAccessToken
  apply Obeys.bind (F := fun φ o => (∃ p, φ = .presenting p ∧ o = .ok p) ∨
    (φ = .idle ∧ o = .error (.invalidTokenError refreshTokenMessage)))
  · exact decodeRefreshToken_obeys (fun l w p hp => .present rfl hp) (fun p => .inl ⟨p, rfl, rfl⟩)
      (.inr ⟨rfl, rfl⟩)
  · rintro φ p (⟨q, rfl, hq⟩ | ⟨-, ho⟩)
    · obtain rfl := Except.ok.inj hq
      simp only [perform_bind, obeys_call]
      rintro ⟨l, w⟩
      simp only [exec, done_ok_bind]
      by_cases hp : w.text (refreshTokenKey p.jti) = some p.sub
      · refine ⟨_, .pass hp, ?_⟩
        have hget : (w.redis.get w.now (refreshTokenKey p.jti)).map Value.str = some p.sub := hp
        simp only [hget, ne_eq, not_true_eq_false, if_false, obeys_call]
        intro s
        cases hu : UUID.parse p.sub with
        | none =>
          refine ⟨_, .takeMalformed hu, ?_⟩
          rcases s with ⟨l, w⟩
          simpa [exec, uuidOf, hu] using IssueEnd.malformed
        | some u =>
          refine ⟨_, .take (UUID.parse_eq_some.mp hu), ?_⟩
          rcases s with ⟨l, w⟩
          simp only [exec, uuidOf, hu, pure_eq, done_ok_bind, obeys_call]
          intro s
          exact ⟨_, .spend, issueTokenPair_obeys u rfl⟩
      · refine ⟨_, .fail hp, ?_⟩
        have hget : (w.redis.get w.now (refreshTokenKey p.jti)).map Value.str ≠ some p.sub := hp
        simpa [hget] using IssueEnd.refused (by simp)
    · cases ho
  · rintro φ e (⟨q, -, hq⟩ | ⟨rfl, he⟩)
    · cases hq
    · exact .refused fun _ _ _ => Except.error.inj he

/-- How the body of a logout may end. -/
inductive LogoutEnd : Phase → Except Exc Unit → Prop
  | done : LogoutEnd .idle (.ok ())
  | malformed : LogoutEnd .malformed (.error .valueError)

theorem logout_obeys (T : String) :
    Obeys (exec env) (Move env (.logout T)) LogoutEnd .idle (logout T) := by
  unfold logout
  apply Obeys.bind (F := fun φ o => (∃ p, φ = .leaving p ∧ o = .ok (some p)) ∨
    (φ = .idle ∧ o = .ok none))
  · apply Obeys.catch (F := fun φ o => (∃ p, φ = .leaving p ∧ o = .ok (some p)) ∨
      (φ = .idle ∧ o = .error (.invalidTokenError refreshTokenMessage)))
    · apply Obeys.bind (F := fun φ o => (∃ p, φ = .leaving p ∧ o = .ok p) ∨
        (φ = .idle ∧ o = .error (.invalidTokenError refreshTokenMessage)))
      · exact decodeRefreshToken_obeys (fun l w p hp => .leave rfl hp) (fun p => .inl ⟨p, rfl, rfl⟩)
          (.inr ⟨rfl, rfl⟩)
      · rintro φ p (⟨q, rfl, hq⟩ | ⟨-, ho⟩)
        · exact .inl ⟨q, rfl, by rw [Except.ok.inj hq]⟩
        · cases ho
      · rintro φ e (⟨q, -, hq⟩ | ⟨rfl, he⟩)
        · cases hq
        · exact .inr ⟨rfl, by rw [Except.error.inj he]⟩
    · rintro φ p (⟨q, rfl, hq⟩ | ⟨-, ho⟩)
      · exact .inl ⟨q, rfl, hq⟩
      · cases ho
    · rintro φ e (⟨q, -, hq⟩ | ⟨rfl, he⟩)
      · cases hq
      · rw [Except.error.inj he]
        exact .inr ⟨rfl, rfl⟩
  · rintro φ p (⟨q, rfl, hq⟩ | ⟨rfl, ho⟩)
    · obtain rfl := Except.ok.inj hq
      simp only [perform_bind, obeys_call]
      rintro ⟨l, w⟩
      cases hu : UUID.parse q.sub with
      | none =>
        refine ⟨_, .dropMalformed hu, ?_⟩
        simpa [exec, uuidOf, hu] using LogoutEnd.malformed
      | some u =>
        refine ⟨_, .drop (UUID.parse_eq_some.mp hu), ?_⟩
        simp only [exec, uuidOf, hu, pure_eq, done_ok_bind, obeys_call]
        intro s
        exact ⟨_, .unlist, .done⟩
    · obtain rfl := Except.ok.inj ho
      exact .done
  · rintro φ e (⟨q, -, hq⟩ | ⟨rfl, he⟩)
    · cases hq
    · cases he

/-- How the body of a reset may end. -/
inductive ResetEnd : Phase → Except Exc Unit → Prop
  | done {u : UUID} : ResetEnd (.closing u) (.ok ())
  | refused {e : Exc} : ResetEnd .idle (.error e)

theorem revokeAllRefreshTokens_obeys (u : UUID) :
    Obeys (exec env) (Move env r) ResetEnd (.assigned u) (revokeAllRefreshTokens u) := by
  simp only [revokeAllRefreshTokens, perform_bind, obeys_call]
  rintro ⟨l, w⟩
  refine ⟨_, .snapshot, ?_⟩
  simp only [exec, Store.smembers, done_ok_bind]
  by_cases h : w.redis.sets (userTokensKey u) = ∅
  · simp only [h, if_true, pure_eq, done_ok_bind, obeys_call]
    intro s
    exact ⟨_, .unindexEmpty, .done⟩
  · simp only [h, if_false, obeys_call]
    intro s
    refine ⟨_, .dropAll, ?_⟩
    intro s
    exact ⟨_, .unindex, .done⟩

theorem resetPassword_obeys (x newPassword salt : String) :
    Obeys (exec env) (Move env (.resetPassword x newPassword salt)) ResetEnd .idle
      (resetPassword env x newPassword salt) := by
  simp only [resetPassword, perform_bind, obeys_call]
  rintro ⟨l, w⟩
  cases hx : (w.redis.get w.now (pwdResetKey x)).map Value.str with
  | none =>
    refine ⟨_, .quiet trivial, ?_⟩
    simp only [exec, hx, done_ok_bind]
    exact .refused
  | some userId =>
    cases hid : UUID.parse userId with
    | none =>
      refine ⟨_, .quiet trivial, ?_⟩
      simp only [exec, hx, done_ok_bind, uuidOf, hid, throw_eq, done_error_bind]
      exact .refused
    | some id =>
      obtain rfl := UUID.parse_eq_some.mp hid
      refine ⟨_, .seek rfl hx, ?_⟩
      simp only [exec, hx, uuidOf, hid, pure_eq, done_ok_bind, obeys_call]
      rintro ⟨l, w⟩
      cases hu : (visibleRows l w).find? fun u => u.deletedAt.isNone && u.id == id with
      | none =>
        refine ⟨_, .missing, ?_⟩
        exact .refused
      | some user =>
        obtain rfl : user.id = id := by
          have hp := List.find?_some hu
          simp only [Bool.and_eq_true, beq_iff_eq] at hp
          exact hp.2
        refine ⟨_, .found hu, ?_⟩
        intro s
        refine ⟨_, .assign rfl, ?_⟩
        intro s
        exact ⟨_, .useResetToken, revokeAllRefreshTokens_obeys user.id⟩

theorem quiet_obeys {α : Type} {p : AuthM α} (h : p.Only (Cmd.quiet r)) :
    Obeys (exec env) (Move env r) (fun φ _ => φ = .idle) .idle p := by
  induction p with
  | done o => exact rfl
  | call c k ih => exact fun s => ⟨_, .quiet h.1, ih _ (h.2 _)⟩

/-- A request that is no reset, whose body issues only quiet commands. -/
theorem quiet_request_obeys {α : Type} {body : AuthM α} {f : α → Reply}
    (hr : ∀ x newPassword salt, r ≠ .resetPassword x newPassword salt)
    (hrefresh : ∀ T d, r ≠ .refreshAccessToken T d) (hf : ∀ x a T, f x ≠ .tokenPair a T)
    (hbody : body.Only (Cmd.quiet r)) :
    Obeys (exec env) (Move env r) (Final env r) .idle (getDb body >>= fun x => return f x) := by
  apply Obeys.bind (F := fun φ _ => φ = .idle)
  · apply obeys_getDb (quiet_obeys hbody)
    · rintro _ _ s rfl
      exact ⟨_, .quiet hr, rfl⟩
    · rintro _ _ s rfl
      exact ⟨_, .quiet trivial, rfl⟩
  · rintro _ x rfl
    exact .done hr hrefresh (hf x)
  · rintro _ e rfl
    exact .refused fun T d h => absurd h (hrefresh T d)

/-- Every request keeps to its moves, whatever runs beside it. -/
theorem program_obeys (env : Env) (r : Request) :
    Obeys (exec env) (Move env r) (Final env r) .idle (r.program env) := by
  cases r with
  | register email password fullName d =>
    refine quiet_request_obeys (f := fun x : User × String => .registered x.1 x.2) (by simp) (by simp) (by simp) ?_
    unfold register
    refine Only.bind (by simp [Cmd.quiet, Request.isLogin]) fun existing => ?_
    split
    · trivial
    · refine Only.bind (by simp [Cmd.quiet, Request.writesUsers]) fun user => ?_
      exact Only.bind (by simp [Cmd.quiet, Request.sets]) fun _ => trivial
  | verifyEmail token =>
    refine quiet_request_obeys (f := fun _ : Unit => .none) (by simp) (by simp) (by simp) ?_
    unfold verifyEmail
    refine Only.bind (by simp [Cmd.quiet]) fun userId => ?_
    cases userId with
    | none => trivial
    | some userId =>
      refine Only.bind (by unfold uuidOf; split <;> trivial) fun id => ?_
      refine Only.bind (by simp [Cmd.quiet]) fun user => ?_
      cases user with
      | none => trivial
      | some user =>
        refine Only.bind (by simp [Cmd.quiet, Request.writesUsers]) fun _ => ?_
        exact Only.bind (by simp [Cmd.quiet]) fun _ => trivial
  | login email password d => exact issuing_request_obeys (login_obeys email password d)
  | requestPasswordReset email token =>
    refine quiet_request_obeys (f := fun x => .resetRequested x) (by simp) (by simp) (by simp) ?_
    unfold requestPasswordReset
    refine Only.bind (by simp [Cmd.quiet, Request.isLogin]) fun user => ?_
    cases user with
    | none => trivial
    | some user => exact Only.bind (by simp [Cmd.quiet, Request.sets]) fun _ => trivial
  | resetPassword token newPassword salt =>
    apply Obeys.bind (F := fun φ o => (∃ u, φ = .closed u ∧ o = .ok ()) ∨ (φ = .idle ∧ ∃ e, o = .error e))
    · apply obeys_getDb (resetPassword_obeys token newPassword salt)
      · rintro _ _ s ⟨⟩
        exact ⟨_, .close, .inl ⟨_, rfl, rfl⟩⟩
      · rintro _ e s ⟨⟩
        exact ⟨_, .quiet trivial, .inr ⟨rfl, e, rfl⟩⟩
    · rintro _ _ (⟨u, rfl, -⟩ | ⟨-, e, he⟩)
      · exact .closed
      · cases he
    · rintro _ e (⟨u, -, he⟩ | ⟨rfl, -⟩)
      · cases he
      · exact .refused (by simp)
  | refreshAccessToken T d => exact issuing_request_obeys (refreshAccessToken_obeys T d)
  | logout T =>
    apply Obeys.bind (F := LogoutEnd)
    · apply obeys_getDb (logout_obeys T)
      · rintro _ _ s ⟨⟩
        exact ⟨_, .quiet (by simp [Cmd.quiet]), .done⟩
      · rintro _ e s ⟨⟩
        exact ⟨_, .rollback, .malformed⟩
    · rintro _ _ ⟨⟩
      exact .done (by simp) (by simp) (by simp)
    · rintro _ _ ⟨⟩
      exact .malformed

end Obeys

/-! ## What a move leaves alone -/

section Frame
variable (env : Env) {r : Request} {c : Cmd} (s : State)

@[simp] theorem exec_now (c : Cmd) : (exec env c s).2.2.now = s.2.now := by
  rcases s with ⟨l, w⟩
  cases c <;> simp only [exec] <;> split <;> rfl

@[simp] theorem exec_decodeToken (T : String) : (exec env (.decodeToken T) s).2 = s := by
  rcases s with ⟨l, w⟩
  simp only [exec]
  split <;> rfl

theorem exec_quiet_look (hc : c.quiet r) (t : Nat) (j : String) :
    (exec env c s).2.2.redis.look t (refreshTokenKey j) = s.2.redis.look t (refreshTokenKey j) := by
  rcases s with ⟨l, w⟩
  cases c with
  | set k v ex => simp [exec, (Request.sets_ne hc j).symm]
  | delete ks =>
    have hj : refreshTokenKey j ∉ ks := fun h => (hc _ h).1 j rfl
    simp [exec, hj]
  | incr k =>
    simp only [exec]
    split
    · rename_i n redis h
      obtain ⟨e, rfl⟩ := hc
      exact Store.look_incr_of_ne t w.now h (by simp)
    · rfl
  | expire k n =>
    obtain ⟨e, rfl⟩ := hc
    exact Store.look_expire_of_ne _ _ _ (by simp) n
  | add id e h n => simp only [exec]; split <;> rfl
  | decodeToken T => simp only [exec]; split <;> rfl
  | sadd k m => exact absurd hc id
  | srem k m => exact absurd hc id
  | _ => rfl

theorem exec_quiet_sets (hc : c.quiet r) (u : UUID) :
    (exec env c s).2.2.redis.sets (userTokensKey u) = s.2.redis.sets (userTokensKey u) := by
  rcases s with ⟨l, w⟩
  cases c with
  | delete ks =>
    have hu : userTokensKey u ∉ ks := fun h => (hc _ h).2 u rfl
    simp [exec, hu]
  | incr k =>
    simp only [exec]
    split
    · rename_i n redis h
      exact congrFun (Store.sets_incr w.now h) _
    · rfl
  | expire k n => simp [exec]
  | add id e h n => simp only [exec]; split <;> rfl
  | decodeToken T => simp only [exec]; split <;> rfl
  | sadd k m => exact absurd hc id
  | srem k m => exact absurd hc id
  | _ => rfl

theorem exec_quiet_issued (hc : c.quiet r) : (exec env c s).2.2.issued = s.2.issued := by
  rcases s with ⟨l, w⟩
  cases c with
  | incr k => simp only [exec]; split <;> rfl
  | add id e h n => simp only [exec]; split <;> rfl
  | decodeToken T => simp only [exec]; split <;> rfl
  | respond ts => exact absurd hc id
  | _ => rfl

/-- Only a commit changes the table, and only if the session has something to write. -/
theorem exec_users {env : Env} {l : Session} {w : World} (h : c ≠ .commit ∨ l = []) :
    (exec env c (l, w)).2.2.users = w.users := by
  cases c with
  | incr k => simp only [exec]; split <;> rfl
  | decodeToken T => simp only [exec]; split <;> rfl
  | add id e p n => simp only [exec]; split <;> rfl
  | commit =>
    rcases h with h | rfl
    · exact absurd rfl h
    · rfl
  | _ => rfl

end Frame

/-- The key of the refresh token `j` is there and holds `u`. -/
def World.LiveToken (w : World) (u : UUID) (j : String) : Prop :=
  w.text (refreshTokenKey j) = some u.str

instance (w : World) (u : UUID) (j : String) : Decidable (w.LiveToken u j) :=
  inferInstanceAs (Decidable (_ = _))

/-- While nothing is written, a text found later is there now. -/
theorem World.text_of_later {w : World} {n : Nat} {key s : String}
    (h : { w with now := w.now + n }.text key = some s) : w.text key = some s := by
  obtain ⟨v, hget, hv⟩ := Option.map_eq_some_iff.mp h
  obtain ⟨d, hl⟩ := Store.get_eq_some.mp hget
  have hl' := Store.look_of_later (Nat.le_add_right w.now n) hl
  exact Option.map_eq_some_iff.mpr ⟨v, Store.get_eq_some.mpr ⟨d, hl'⟩, hv⟩

/-- While nothing is written, a token that is live later is live now. -/
theorem World.LiveToken.of_later {w : World} {n : Nat} {u : UUID} {j : String}
    (h : { w with now := w.now + n }.LiveToken u j) : w.LiveToken u j :=
  World.text_of_later h

section Live
variable {env : Env} {r : Request} {φ φ' : Phase} {c : Cmd} {s : State} {u : UUID} {j : String}

/-- A command that leaves the cell of a token alone leaves the token as it is. -/
theorem liveToken_exec_congr (h : (exec env c s).2.2.redis.look s.2.now (refreshTokenKey j) =
    s.2.redis.look s.2.now (refreshTokenKey j)) :
    (exec env c s).2.2.LiveToken u j ↔ s.2.LiveToken u j := by
  unfold World.LiveToken World.text Store.get
  rw [exec_now, h]

theorem liveToken_delete {ks : Finset String} :
    (exec env (.delete ks) s).2.2.LiveToken u j ↔ refreshTokenKey j ∉ ks ∧ s.2.LiveToken u j := by
  rcases s with ⟨l, w⟩
  by_cases h : refreshTokenKey j ∈ ks <;>
    simp [World.LiveToken, World.text, Store.get, exec, h]

theorem liveToken_set {j' v : String} {ex : Nat} (hex : 0 < ex) :
    (exec env (.set (refreshTokenKey j') v ex) s).2.2.LiveToken u j ↔
      (j = j' ∧ v = u.str) ∨ (j ≠ j' ∧ s.2.LiveToken u j) := by
  rcases s with ⟨l, w⟩
  by_cases h : j = j' <;>
    simp [World.LiveToken, World.text, Store.get, exec, h, hex]

/-- No move but the one that sets a new key makes a token live. -/
theorem Move.live_before (hm : Move env r φ c s φ') (hl : (exec env c s).2.2.LiveToken u j) :
    s.2.LiveToken u j ∨
      (φ = .issuing u ∧ φ' = .recording u ∧ ∃ d, r.draws = some d ∧ d.refreshJti.str = j) := by
  cases hm with
  | quiet hc | quietRejected hc =>
    exact .inl ((liveToken_exec_congr (exec_quiet_look env s hc _ j)).mp hl)
  | set hd =>
    rename_i v d
    rcases (liveToken_set env.settings.refreshSeconds_pos).mp hl with ⟨hj, hv⟩ | ⟨-, hl⟩
    · obtain rfl := UUID.str_inj.mp hv
      exact .inr ⟨rfl, rfl, d, hd, hj.symm⟩
    · exact .inl hl
  | cleared | take hsub | drop hsub | takeMalformed hsub | dropMalformed hsub | useResetToken |
    dropAll | unindexEmpty | unindex => exact .inl (liveToken_delete.mp hl).2
  | present hr hp | leave hr hp => exact .inl (by rwa [exec_decodeToken] at hl)
  | _ => exact .inl hl

/-- A token leaves an index only when it is spent or logged out, or the index goes. -/
theorem Move.indexed_after (hm : Move env r φ c s φ') (hj : j ∈ s.2.redis.sets (userTokensKey u)) :
    j ∈ (exec env c s).2.2.redis.sets (userTokensKey u) ∨
      (∃ p, (φ = .spending p u ∨ φ = .unlisting p u) ∧ p.jti = j) ∨
      c = .delete {userTokensKey u} := by
  rcases s with ⟨l, w⟩
  cases hm with
  | quiet hc | quietRejected hc => exact .inl (exec_quiet_sets env (l, w) hc u ▸ hj)
  | sadd hd =>
    rename_i v d
    left
    by_cases h : u = v <;> simp_all [exec]
  | spend =>
    rename_i p v
    by_cases h : u = v ∧ p.jti = j
    · obtain ⟨rfl, hp⟩ := h
      exact .inr (.inl ⟨p, .inl rfl, hp⟩)
    · left
      by_cases hu : u = v
      · subst hu
        have hne : j ≠ p.jti := fun he => h ⟨rfl, he.symm⟩
        simpa [exec, hne] using hj
      · simpa [exec, hu] using hj
  | unlist =>
    rename_i p v
    by_cases h : u = v ∧ p.jti = j
    · obtain ⟨rfl, hp⟩ := h
      exact .inr (.inl ⟨p, .inr rfl, hp⟩)
    · left
      by_cases hu : u = v
      · subst hu
        have hne : j ≠ p.jti := fun he => h ⟨rfl, he.symm⟩
        simpa [exec, hne] using hj
      · simpa [exec, hu] using hj
  | cleared | take hsub | drop hsub | takeMalformed hsub | dropMalformed hsub | useResetToken |
    dropAll => exact .inl (by simpa [exec] using hj)
  | unindexEmpty | unindex =>
    rename_i v
    by_cases hu : u = v
    · exact .inr (.inr (by rw [hu]))
    · exact .inl (by simpa [exec, hu] using hj)
  | present hr hp | leave hr hp => exact .inl (by simpa using hj)
  | _ => exact .inl hj

/-- A token enters an index only when the request that drew it records it. -/
theorem Move.indexed_before (hm : Move env r φ c s φ')
    (hj : j ∈ (exec env c s).2.2.redis.sets (userTokensKey u)) :
    j ∈ s.2.redis.sets (userTokensKey u) ∨
      (φ = .recording u ∧ φ' = .issued u ∧ ∃ d, r.draws = some d ∧ d.refreshJti.str = j) := by
  rcases s with ⟨l, w⟩
  cases hm with
  | quiet hc | quietRejected hc => exact .inl (exec_quiet_sets env (l, w) hc u ▸ hj)
  | sadd hd =>
    rename_i v d
    by_cases hu : u = v
    · subst hu
      rcases (by simpa [exec] using hj) with rfl | hj
      · exact .inr ⟨rfl, rfl, d, hd, rfl⟩
      · exact .inl hj
    · exact .inl (by simpa [exec, hu] using hj)
  | spend | unlist =>
    rename_i p v
    left
    by_cases hu : u = v
    · subst hu
      simp only [exec, Store.sets_srem, if_true] at hj
      exact Finset.mem_of_mem_erase hj
    · simpa [exec, hu] using hj
  | cleared | take hsub | drop hsub | takeMalformed hsub | dropMalformed hsub | useResetToken |
    dropAll => exact .inl (by simpa [exec] using hj)
  | unindexEmpty | unindex =>
    rename_i v
    left
    by_cases hu : u = v <;> simp_all [exec]
  | present hr hp | leave hr hp => exact .inl (by simpa using hj)
  | _ => exact .inl hj

/-- A refresh token leaves the app only in the response of the request that drew it. -/
theorem Move.issued_before (hm : Move env r φ c s φ') {T : String}
    (hT : T ∈ (exec env c s).2.2.issued) :
    T ∈ s.2.issued ∨ (∃ u, φ = .issued u ∧ φ' = .issued u ∧
      ∀ p, env.decode T = some p → p.type = .refresh → MintedBy r u p) := by
  rcases s with ⟨l, w⟩
  cases hm with
  | quiet hc | quietRejected hc => exact .inl (exec_quiet_issued env (l, w) hc ▸ hT)
  | respond ha haccess hR hminted hsub =>
    rename_i v a R p q
    simp only [exec, List.cons_append, List.nil_append, List.mem_cons] at hT
    rcases hT with rfl | rfl | hT
    · refine .inr ⟨v, rfl, rfl, fun p' hp' hrefresh => ?_⟩
      obtain rfl := Option.some.inj (ha.symm.trans hp')
      rw [haccess] at hrefresh
      cases hrefresh
    · refine .inr ⟨v, rfl, rfl, fun p' hp' _ => ?_⟩
      obtain rfl := Option.some.inj (hR.symm.trans hp')
      exact hminted
    · exact .inl hT
  | present hr hp | leave hr hp => exact .inl (by simpa using hT)
  | _ => exact .inl hT

end Live

theorem beside_obeys {ι : Type} (env : Env) (w : World) (requests : ι → Request) :
    AllObey (machine env) (fun i => Move env (requests i)) (fun i => Final env (requests i))
      (fun _ => .idle) (beside env w requests) :=
  fun i => program_obeys env (requests i)

end TaskMgtApp.Auth
