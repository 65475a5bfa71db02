import TaskMgtApp.Auth.Concurrent

/-!
# A login call and the two lockout keys

What `login` does to the counter and the lock of its email, as moves between
phases, with every program text of a login checked against them.
-/
namespace TaskMgtApp.Auth

open TaskMgtApp.Common
open TaskMgtApp.Lib.Program TaskMgtApp.Lib.Program.Prog
open TaskMgtApp.Lib.Interleaving
open TaskMgtApp.Lib.ExpiringStore

/-! ## The moves of a login call -/

/-- The password fails the check against the account that has the email `e` now. -/
def WrongFor (env : Env) (e password : String) (w : World) : Prop :=
  (w.users.find? fun u => u.deletedAt.isNone && u.email == env.lower e).filter
    (credentialsValid env password) = none

/-- How far a login call has come with the lock and the counter. -/
inductive CheckPhase where
  | before
  /-- The lock test has passed. -/
  | tested
  /-- The check has failed. -/
  | wrong
  /-- The counter has been raised to `n`. -/
  | counted (n : Int)
  /-- The counter has reached the threshold, the lock is not set yet. -/
  | locking
  /-- The lock is set, the counter is still there. -/
  | clearing
  /-- The check has passed, counter and lock are still there. -/
  | passed
  /-- Done with counter and lock, after a failed check or not. -/
  | finished (failed : Bool)

namespace CheckPhase

/-- Past the lock test, with a failed check that is not counted yet or that would come now. -/
def underWay (env : Env) (e password : String) (w : World) : CheckPhase → Prop
  | tested => WrongFor env e password w
  | wrong => True
  | _ => False

/-- Between the count that reached the threshold `M` and the end of the lock-down. -/
def closing (M : Nat) : CheckPhase → Prop
  | counted n => (M : Int) ≤ n
  | locking | clearing => True
  | _ => False

/-- The check has failed. -/
def failed : CheckPhase → Prop
  | wrong | counted _ | locking | clearing | finished true => True
  | _ => False

theorem underWay_congr {env : Env} {e password : String} {v w : World} (h : v.users = w.users)
    (φ : CheckPhase) : φ.underWay env e password v ↔ φ.underWay env e password w := by
  cases φ <;> simp [underWay, WrongFor, h]

end CheckPhase

/-- A command of a login that is done with counter and lock. -/
def Cmd.afterCheck : Cmd → Prop
  | .utcNow | .commit | .rollback | .respond .. => True
  | .set k _ _ => ∃ j, k = refreshTokenKey j
  | .sadd k _ => ∃ u, k = userTokensKey u
  | _ => False

/-- The moves of a login for the normalized email `e` with this password. -/
inductive CheckMove (env : Env) (e password : String) :
    CheckPhase → Cmd → State → CheckPhase → Prop
  | locked {l : Session} {w : World} (h : 0 < w.redis.ttl w.now (loginLockKey e)) :
      CheckMove env e password .before (.ttl (loginLockKey e)) (l, w) (.finished false)
  | test {l : Session} {w : World} (h : ¬ 0 < w.redis.ttl w.now (loginLockKey e)) :
      CheckMove env e password .before (.ttl (loginLockKey e)) (l, w) .tested
  | fail {l : Session} {w : World} (h : ((visibleRows l w).find? fun u =>
        u.deletedAt.isNone && u.email == env.lower e).filter (credentialsValid env password) = none) :
      CheckMove env e password .tested (.getByEmail e) (l, w) .wrong
  | unverified {l : Session} {w : World} {user : User} (h : ((visibleRows l w).find? fun u =>
        u.deletedAt.isNone && u.email == env.lower e).filter (credentialsValid env password) =
        some user) :
      CheckMove env e password .tested (.getByEmail e) (l, w) (.finished false)
  | pass {l : Session} {w : World} {user : User} (h : ((visibleRows l w).find? fun u =>
        u.deletedAt.isNone && u.email == env.lower e).filter (credentialsValid env password) =
        some user) :
      CheckMove env e password .tested (.getByEmail e) (l, w) .passed
  | count {l : Session} {w : World} {n : Int} {redis : Redis}
      (h : w.redis.incr Value.toInt? Value.num w.now (loginAttemptsKey e) = some (n, redis)) :
      CheckMove env e password .wrong (.incr (loginAttemptsKey e)) (l, w) (.counted n)
  | uncountable {l : Session} {w : World}
      (h : w.redis.incr Value.toInt? Value.num w.now (loginAttemptsKey e) = none) :
      CheckMove env e password .wrong (.incr (loginAttemptsKey e)) (l, w) (.finished true)
  | expire {n : Int} {s : State} (h : ¬ (env.settings.loginMaxAttempts : Int) ≤ n) :
      CheckMove env e password (.counted n)
        (.expire (loginAttemptsKey e) env.settings.lockoutSeconds) s (.finished true)
  | expireFull {n : Int} {s : State} (h : (env.settings.loginMaxAttempts : Int) ≤ n) :
      CheckMove env e password (.counted n)
        (.expire (loginAttemptsKey e) env.settings.lockoutSeconds) s .locking
  | lock {s : State} : CheckMove env e password .locking
      (.set (loginLockKey e) "1" env.settings.lockoutSeconds) s .clearing
  | clear {s : State} :
      CheckMove env e password .clearing (.delete {loginAttemptsKey e}) s (.finished true)
  | accept {s : State} : CheckMove env e password .passed
      (.delete {loginAttemptsKey e, loginLockKey e}) s (.finished false)
  | rest {b : Bool} {c : Cmd} {s : State} (hc : c.afterCheck) :
      CheckMove env e password (.finished b) c s (.finished b)

/-- A login writes nothing to the table. -/
theorem CheckMove.reads {env : Env} {e password : String} {φ φ' : CheckPhase} {c : Cmd} {w : World}
    (hm : CheckMove env e password φ c ([], w) φ') :
    (exec env c ([], w)).2.1 = [] ∧ (exec env c ([], w)).2.2.users = w.users := by
  refine ⟨?_, exec_users (.inr rfl)⟩
  cases hm with
  | rest hc =>
    cases c with
    | utcNow | commit | rollback | respond | set | sadd => rfl
    | _ => exact hc.elim
  | count h | uncountable h => simp [exec, h]
  | _ => rfl

/-- A login ends when it is done with counter and lock, with `InvalidCredentialsError` only
after a failed check. -/
def CheckEnd {α : Type} (φ : CheckPhase) (o : Except Exc α) : Prop :=
  ∃ b, φ = .finished b ∧ ∀ message, o = .error (.invalidCredentialsError message) → b = true

section Obeys
variable {env : Env} {e password : String}

theorem issueTokenPair_obeys_check (u : UUID) (d : IssueDraws) :
    Obeys (exec env) (CheckMove env e password) CheckEnd (.finished false) (issueTokenPair env u d) := by
  rintro ⟨l₁, w₁⟩
  refine ⟨_, .rest trivial, ?_⟩
  rintro ⟨l₂, w₂⟩
  refine ⟨_, .rest trivial, ?_⟩
  rintro ⟨l₃, w₃⟩
  refine ⟨_, .rest ⟨_, rfl⟩, ?_⟩
  rintro ⟨l₄, w₄⟩
  exact ⟨_, .rest ⟨_, rfl⟩, _, rfl, by rintro message ⟨⟩⟩

theorem registerFailedAttempt_obeys_check :
    Obeys (exec env) (CheckMove env e password)
      (fun φ (_ : Except Exc Unit) => φ = .finished true) .wrong
      (registerFailedAttempt env e) := by
  simp only [registerFailedAttempt, perform_bind, obeys_call]
  rintro ⟨l, w⟩
  cases hi : w.redis.incr Value.toInt? Value.num w.now (loginAttemptsKey e) with
  | none =>
    refine ⟨_, .uncountable hi, ?_⟩
    simp [exec, hi]
  | some r =>
    obtain ⟨n, redis⟩ := r
    refine ⟨_, .count hi, ?_⟩
    simp only [exec, hi, done_ok_bind, obeys_call]
    rintro ⟨l, w⟩
    by_cases hn : (env.settings.loginMaxAttempts : Int) ≤ n
    · refine ⟨_, .expireFull hn, ?_⟩
      simp only [exec, hn, if_true, done_ok_bind, obeys_call]
      intro s
      refine ⟨_, .lock, ?_⟩
      intro s
      exact ⟨_, .clear, rfl⟩
    · refine ⟨_, .expire hn, ?_⟩
      simp [hn, pure_eq]

theorem login_obeys_check (email : String) (d : IssueDraws) :
    Obeys (exec env) (CheckMove env (env.lower email) password) CheckEnd .before
      (login env email password d) := by
  simp only [login, perform_bind, obeys_call]
  rintro ⟨l, w⟩
  by_cases hlock : 0 < w.redis.ttl w.now (loginLockKey (env.lower email))
  · refine ⟨_, .locked hlock, ?_⟩
    simp only [exec, done_ok_bind, hlock, if_true]
    exact ⟨_, rfl, by rintro message ⟨⟩⟩
  · refine ⟨_, .test hlock, ?_⟩
    simp only [exec, done_ok_bind, hlock, if_false, obeys_call]
    rintro ⟨l, w⟩
    cases hu : ((visibleRows l w).find? fun u => u.deletedAt.isNone &&
        u.email == env.lower (env.lower email)).filter (credentialsValid env password) with
    | none =>
      refine ⟨_, .fail hu, ?_⟩
      simp only
      apply registerFailedAttempt_obeys_check.bind
      · rintro _ _ rfl
        exact ⟨_, rfl, fun _ _ => rfl⟩
      · rintro _ _ rfl
        exact ⟨_, rfl, fun _ _ => rfl⟩
    | some user =>
      by_cases hv : user.isEmailVerified = false
      · refine ⟨_, .unverified hu, ?_⟩
        simp only [hv, if_true]
        exact ⟨_, rfl, by rintro message ⟨⟩⟩
      · refine ⟨_, .pass hu, ?_⟩
        simp only [hv]
        intro s
        exact ⟨_, .accept, issueTokenPair_obeys_check user.id d⟩

theorem login_program_obeys_check (env : Env) (email password : String) (d : IssueDraws) :
    Obeys (exec env) (CheckMove env (env.lower email) password) CheckEnd .before
      ((Request.login email password d).program env) := by
  simp only [Request.program]
  apply Obeys.bind (F := CheckEnd)
  · unfold getDb
    apply Obeys.catch (F := CheckEnd)
    · apply (login_obeys_check email d).bind
      · rintro _ pair ⟨b, rfl, -⟩ s
        exact ⟨_, .rest trivial, _, rfl, by rintro message ⟨⟩⟩
      · rintro _ exc ⟨b, rfl, hb⟩
        exact ⟨b, rfl, fun message h => hb message (by rw [Except.error.inj h])⟩
    · exact fun _ _ h => h
    · rintro _ exc ⟨b, rfl, hb⟩ s
      exact ⟨_, .rest trivial, b, rfl, hb⟩
  · rintro _ pair ⟨b, rfl, -⟩ s
    exact ⟨_, .rest trivial, _, rfl, by rintro message ⟨⟩⟩
  · rintro _ exc ⟨b, rfl, hb⟩
    exact ⟨b, rfl, fun message h => hb message (by rw [Except.error.inj h])⟩

end Obeys

end TaskMgtApp.Auth
