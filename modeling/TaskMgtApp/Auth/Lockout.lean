import TaskMgtApp.Auth.Instance

/-!
# The lockout against its history

The code keeps a counter with a sliding deadline and a lock with a fixed one.
The specification keeps nothing: it reads streaks of failed checks off the log
of login calls. `Agrees` says that both stores show, key by key, what the log
says, and `lockout_iff` that a call is turned away exactly when the log has a
streak of full length that ended less than a lockout ago.

Calls come at any time, and the table of users may be a different one at each.
-/
namespace TaskMgtApp.Auth

open TaskMgtApp.Common
open TaskMgtApp.Lib.ExpiringStore

/-! ## Runs of login calls -/

/-- One call of the run: `wait` seconds after the last one, on this table of users. -/
structure LoginCall where
  wait : Nat
  users : List User
  email : String
  password : String
  draws : IssueDraws

/-- A call that was served, with its normalized email. -/
structure Attempt where
  time : Nat
  email : String
  outcome : Except Exc Reply

/-- The call ended with `InvalidCredentialsError`. -/
def Attempt.failed (a : Attempt) : Bool :=
  match a.outcome with
  | .error (.invalidCredentialsError _) => true
  | _ => false

def Attempt.succeeded (a : Attempt) : Bool :=
  match a.outcome with
  | .ok _ => true
  | .error _ => false

/-- The world and the calls so far, the latest first. -/
structure LoginRun where
  world : World
  log : List Attempt

namespace LoginRun

def start (now : Nat) : LoginRun where
  world := { now := now, redis := Store.empty, users := [], issued := [] }
  log := []

/-- The world that the next call meets. -/
def meets (h : LoginRun) (a : LoginCall) : World :=
  { h.world with now := h.world.now + a.wait, users := a.users }

/-- What the next call returns, and the world it leaves. -/
def serves (env : Env) (h : LoginRun) (a : LoginCall) : Except Exc Reply × World :=
  serve env (h.meets a) (.login a.email a.password a.draws)

def step (env : Env) (h : LoginRun) (a : LoginCall) : LoginRun where
  world := (h.serves env a).2
  log := ⟨(h.meets a).now, env.lower a.email, (h.serves env a).1⟩ :: h.log

def after (env : Env) (h : LoginRun) (calls : List LoginCall) : LoginRun := calls.foldl (step env) h

end LoginRun

/-! ## Streaks -/

section Streaks
variable (M L : Nat) (e : String)

/-- The streak of failed checks for `e` that is open after these calls: its length and
the second of its last check. A success closes it, and so does its `M`-th check; a
check that comes `L` seconds or more after the last one opens another. -/
def openStreak : List Attempt → Option (Nat × Nat)
  | [] => none
  | a :: older =>
    if a.email ≠ e then openStreak older
    else if a.failed then
      let n := match openStreak older with
        | some (n, last) => if a.time < last + L then n + 1 else 1
        | none => 1
      if n = M then none else some (n, a.time)
    else if a.succeeded then none
    else openStreak older

/-- The place in its streak of a failed check for `e` at second `t` after these calls. -/
def place (t : Nat) (older : List Attempt) : Nat :=
  match openStreak M L e older with
  | some (n, last) => if t < last + L then n + 1 else 1
  | none => 1

/-- A failed check for `e` at second `t` was the `M`-th of its streak. -/
inductive Triggered : List Attempt → Nat → Prop
  | here {a : Attempt} {older : List Attempt} (he : a.email = e) (hf : a.failed = true)
      (hM : place M L e a.time older = M) : Triggered (a :: older) a.time
  | older {a : Attempt} {older : List Attempt} {t : Nat} (h : Triggered older t) :
      Triggered (a :: older) t

variable {M L e}

theorem triggered_cons {a : Attempt} {older : List Attempt} {t : Nat} :
    Triggered M L e (a :: older) t ↔
      (a.email = e ∧ a.failed = true ∧ place M L e a.time older = M ∧ t = a.time) ∨
      Triggered M L e older t := by
  constructor
  · intro h
    cases h with
    | here he hf hM => exact .inl ⟨he, hf, hM, rfl⟩
    | older h => exact .inr h
  · rintro (⟨he, hf, hM, rfl⟩ | h)
    · exact .here he hf hM
    · exact .older h

instance decidableTriggered (t : Nat) : (log : List Attempt) → Decidable (Triggered M L e log t)
  | [] => isFalse nofun
  | _ :: older =>
    have := decidableTriggered t older
    decidable_of_iff _ triggered_cons.symm

theorem openStreak_other {a : Attempt} (older : List Attempt) (h : a.email ≠ e) :
    openStreak M L e (a :: older) = openStreak M L e older := by
  simp [openStreak, h]

theorem openStreak_failed {a : Attempt} (older : List Attempt) (he : a.email = e)
    (hf : a.failed = true) :
    openStreak M L e (a :: older) =
      if place M L e a.time older = M then none else some (place M L e a.time older, a.time) := by
  simp only [openStreak, he, hf, place, ne_eq, not_true_eq_false, if_false, if_true]
  rfl

theorem openStreak_succeeded {a : Attempt} (older : List Attempt) (he : a.email = e)
    (hf : a.failed = false) (hs : a.succeeded = true) : openStreak M L e (a :: older) = none := by
  simp [openStreak, he, hf, hs]

theorem openStreak_ignored {a : Attempt} (older : List Attempt) (hf : a.failed = false)
    (hs : a.succeeded = false) : openStreak M L e (a :: older) = openStreak M L e older := by
  by_cases he : a.email = e <;> simp [openStreak, he, hf, hs]

/-- An open streak is shorter than `M`. -/
theorem openStreak_lt (hM : 0 < M) {log : List Attempt} {n last : Nat}
    (h : openStreak M L e log = some (n, last)) : n < M := by
  induction log generalizing n last with
  | nil => cases h
  | cons a older ih =>
    by_cases he : a.email = e
    · by_cases hf : a.failed = true
      · rw [openStreak_failed older he hf] at h
        split at h
        · cases h
        · rename_i hne
          obtain ⟨rfl, rfl⟩ := Prod.mk.inj (Option.some.inj h)
          have hle : place M L e a.time older ≤ M := by
            unfold place
            split
            · rename_i n' last' ho
              have := ih ho
              split <;> omega
            · omega
          omega
      · by_cases hs : a.succeeded = true
        · rw [openStreak_succeeded older he (by simpa using hf) hs] at h
          cases h
        · rw [openStreak_ignored older (by simpa using hf) (by simpa using hs)] at h
          exact ih h
    · rw [openStreak_other older he] at h
      exact ih h

theorem place_le (hM : 0 < M) (t : Nat) (log : List Attempt) : place M L e t log ≤ M := by
  unfold place
  split
  · rename_i n last h
    have := openStreak_lt hM h
    split <;> omega
  · omega

end Streaks

/-! ## What counting a failed check writes -/

section Failed
variable {w : World} {e : String} {n : Nat}

/-- The counter shows `n` failed checks; no counter shows none. -/
def Counts (w : World) (e : String) (n : Nat) : Prop :=
  (w.redis.look w.now (loginAttemptsKey e) = none ∧ n = 0) ∨
    ∃ d, w.redis.look w.now (loginAttemptsKey e) = some ⟨.num n, d⟩

/-- `INCR` on a counter that shows `n` keeps its deadline. -/
theorem incr_of_counts (h : Counts w e n) :
    ∃ d, Store.incr Value.toInt? Value.num w.now (loginAttemptsKey e) w.redis =
      some (((n + 1 : Nat) : Int), w.redis.put (loginAttemptsKey e) ⟨.num (n + 1 : Nat), d⟩) ∧
      (w.redis.put (loginAttemptsKey e) ⟨.num (n + 1 : Nat), d⟩).look w.now (loginAttemptsKey e) =
        some ⟨.num (n + 1 : Nat), d⟩ := by
  have hput : ∀ d, Cell.live w.now ⟨Value.num (n + 1 : Nat), d⟩ = true →
      (w.redis.put (loginAttemptsKey e) ⟨.num (n + 1 : Nat), d⟩).look w.now (loginAttemptsKey e) =
        some ⟨.num (n + 1 : Nat), d⟩ := by
    intro d hlive
    rw [Store.look_put, if_pos rfl, Option.filter, hlive, if_pos rfl]
  rcases h with ⟨hnone, rfl⟩ | ⟨d, hl⟩
  · exact ⟨none, by simp [Store.incr, hnone], hput none rfl⟩
  · exact ⟨d, by simp [Store.incr, hl], hput d (Store.look_eq_some.mp hl).2⟩

/-- The store after the counter has gone from `n` to `n + 1`: below the threshold the
counter has a new deadline, at the threshold the lock is there in its place. -/
theorem failedAttempt_of_counts (env : Env) (h : Counts w e n) :
    ∃ redis, w.failedAttempt env e = some redis ∧
      ((n + 1 < env.settings.loginMaxAttempts ∧
        redis.look w.now (loginAttemptsKey e) =
          some ⟨.num (n + 1 : Nat), some (w.now + env.settings.lockoutSeconds)⟩ ∧
        redis.look w.now (loginLockKey e) = w.redis.look w.now (loginLockKey e)) ∨
      (env.settings.loginMaxAttempts ≤ n + 1 ∧ redis.look w.now (loginAttemptsKey e) = none ∧
        redis.look w.now (loginLockKey e) =
          some ⟨.text "1", some (w.now + env.settings.lockoutSeconds)⟩)) := by
  have hpos : w.now < w.now + env.settings.lockoutSeconds := by
    have := env.settings.lockoutSeconds_pos
    omega
  obtain ⟨d, hincr, hput⟩ := incr_of_counts h
  have hexpire : Store.expire w.now (loginAttemptsKey e) env.settings.lockoutSeconds
      (w.redis.put (loginAttemptsKey e) ⟨.num (n + 1 : Nat), d⟩) =
      (true, (w.redis.put (loginAttemptsKey e) ⟨.num (n + 1 : Nat), d⟩).put (loginAttemptsKey e)
        ⟨.num (n + 1 : Nat), some (w.now + env.settings.lockoutSeconds)⟩) := by
    simp only [Store.expire, hput]
  unfold World.failedAttempt
  rw [hincr]
  simp only [Option.map_some, hexpire, Int.ofNat_le, Option.some.injEq, exists_eq_left']
  by_cases hM : env.settings.loginMaxAttempts ≤ n + 1
  · right
    simp [hM, hpos]
  · left
    have hlt : n + 1 < env.settings.loginMaxAttempts := by omega
    simp [hM, hlt, Option.filter, Cell.live, hpos]

end Failed

/-! ## The store agrees with the log -/

/-- What the log says of `e` and what the two keys of `e` show. -/
structure Agrees (env : Env) (w : World) (log : List Attempt) (e : String) : Prop where
  past : ∀ t, Triggered env.settings.loginMaxAttempts env.settings.lockoutSeconds e log t → t ≤ w.now
  attempts : w.redis.look w.now (loginAttemptsKey e) =
    (openStreak env.settings.loginMaxAttempts env.settings.lockoutSeconds e log).bind fun (n, last) =>
      if w.now < last + env.settings.lockoutSeconds then
        some ⟨.num n, some (last + env.settings.lockoutSeconds)⟩
      else none
  lock : ∀ c, w.redis.look w.now (loginLockKey e) = some c ↔
    ∃ t, Triggered env.settings.loginMaxAttempts env.settings.lockoutSeconds e log t ∧
      w.now < t + env.settings.lockoutSeconds ∧
      c = ⟨.text "1", some (t + env.settings.lockoutSeconds)⟩

section Agreement
variable {env : Env} {w w' : World} {log : List Attempt} {e : String} {a : Attempt}

theorem Agrees.start (env : Env) (now : Nat) (e : String) :
    Agrees env (LoginRun.start now).world (LoginRun.start now).log e where
  past t h := by cases h
  attempts := rfl
  lock c := by
    constructor
    · intro h; cases h
    · rintro ⟨t, h, -⟩; cases h

/-- Time passes and the table of users changes. -/
theorem Agrees.later (h : Agrees env w log e) (n : Nat) (users : List User) :
    Agrees env { w with now := w.now + n, users := users } log e where
  past t ht := Nat.le_add_right_of_le (h.past t ht)
  attempts := by
    have hle : w.now ≤ w.now + n := Nat.le_add_right ..
    have hnow := h.attempts
    cases ho : openStreak env.settings.loginMaxAttempts env.settings.lockoutSeconds e log with
    | none =>
      rw [ho] at hnow
      exact Store.look_none_later hle hnow
    | some s =>
      obtain ⟨k, last⟩ := s
      simp only [ho, Option.bind_some] at hnow ⊢
      by_cases hlive : w.now + n < last + env.settings.lockoutSeconds
      · rw [if_pos (by omega)] at hnow
        rw [if_pos hlive]
        exact (Store.look_later_iff hnow).mpr hlive
      · rw [if_neg hlive]
        cases hl : w.redis.look (w.now + n) (loginAttemptsKey e) with
        | none => rfl
        | some c =>
          have hbefore := Store.look_of_later hle hl
          rw [hnow] at hbefore
          split at hbefore
          · obtain rfl := Option.some.inj hbefore
            exact absurd (Store.lt_deadline hl) hlive
          · cases hbefore
  lock c := by
    have hle : w.now ≤ w.now + n := Nat.le_add_right ..
    constructor
    · intro hl
      obtain ⟨t, ht, -, rfl⟩ := (h.lock c).mp (Store.look_of_later hle hl)
      exact ⟨t, ht, Store.lt_deadline hl, rfl⟩
    · rintro ⟨t, ht, hlive, rfl⟩
      have hl := (h.lock _).mpr ⟨t, ht, lt_of_le_of_lt hle hlive, rfl⟩
      exact (Store.look_later_iff hl).mpr hlive

/-- The lock is there, and its time to live is that of the last full streak. -/
theorem Agrees.ttl (h : Agrees env w log e) {t : Nat}
    (ht : Triggered env.settings.loginMaxAttempts env.settings.lockoutSeconds e log t)
    (hlive : w.now < t + env.settings.lockoutSeconds) :
    w.redis.ttl w.now (loginLockKey e) = (t + env.settings.lockoutSeconds : Nat) - (w.now : Int) := by
  have hl := (h.lock _).mpr ⟨t, ht, hlive, rfl⟩
  exact Store.ttl_of_look hl

theorem Agrees.locked_iff (h : Agrees env w log e) :
    0 < w.redis.ttl w.now (loginLockKey e) ↔
      ∃ t, Triggered env.settings.loginMaxAttempts env.settings.lockoutSeconds e log t ∧
        w.now < t + env.settings.lockoutSeconds := by
  constructor
  · intro hpos
    cases hl : w.redis.look w.now (loginLockKey e) with
    | none =>
      simp only [Store.ttl, hl] at hpos
      split at hpos <;> omega
    | some c =>
      obtain ⟨t, ht, hlive, -⟩ := (h.lock c).mp hl
      exact ⟨t, ht, hlive⟩
  · rintro ⟨t, ht, hlive⟩
    rw [h.ttl ht hlive]
    omega

/-- The counter shows the checks of the streak that a check now would continue. -/
theorem Agrees.counts (h : Agrees env w log e) :
    ∃ n, Counts w e n ∧
      place env.settings.loginMaxAttempts env.settings.lockoutSeconds e w.now log = n + 1 := by
  have ha := h.attempts
  unfold place
  cases ho : openStreak env.settings.loginMaxAttempts env.settings.lockoutSeconds e log with
  | none =>
    rw [ho] at ha
    exact ⟨0, .inl ⟨ha, rfl⟩, rfl⟩
  | some s =>
    obtain ⟨n, last⟩ := s
    simp only [ho, Option.bind_some] at ha ⊢
    by_cases hlive : w.now < last + env.settings.lockoutSeconds
    · rw [if_pos hlive] at ha ⊢
      exact ⟨n, .inr ⟨_, ha⟩, rfl⟩
    · rw [if_neg hlive] at ha ⊢
      exact ⟨0, .inl ⟨ha, rfl⟩, rfl⟩

/-! ## Every call keeps the agreement -/

/-- A call for another email, or one that neither fails nor passes the check. -/
theorem Agrees.unaffected (h : Agrees env w log e) (hnow : w'.now = w.now)
    (hattempts : w'.redis.look w.now (loginAttemptsKey e) = w.redis.look w.now (loginAttemptsKey e))
    (hlock : w'.redis.look w.now (loginLockKey e) = w.redis.look w.now (loginLockKey e))
    (ha : a.email ≠ e ∨ (a.failed = false ∧ a.succeeded = false)) : Agrees env w' (a :: log) e := by
  have htriggered : ∀ t, Triggered env.settings.loginMaxAttempts env.settings.lockoutSeconds e
      (a :: log) t ↔ Triggered env.settings.loginMaxAttempts env.settings.lockoutSeconds e log t := by
    intro t
    rw [triggered_cons]
    constructor
    · rintro (⟨he, hf, -⟩ | ht)
      · rcases ha with ha | ⟨ha, -⟩
        · exact absurd he ha
        · rw [ha] at hf; cases hf
      · exact ht
    · exact .inr
  have hstreak : openStreak env.settings.loginMaxAttempts env.settings.lockoutSeconds e (a :: log) =
      openStreak env.settings.loginMaxAttempts env.settings.lockoutSeconds e log := by
    rcases ha with ha | ⟨hf, hs⟩
    · exact openStreak_other log ha
    · exact openStreak_ignored log hf hs
  refine ⟨?_, ?_, ?_⟩
  · intro t ht
    rw [hnow]
    exact h.past t ((htriggered t).mp ht)
  · rw [hnow, hattempts, hstreak]
    exact h.attempts
  · intro c
    simp only [hnow, hlock, htriggered]
    exact h.lock c

/-- A failed check of `e` while `e` is not locked. -/
theorem Agrees.failed (h : Agrees env w log e) {redis : Redis}
    (hopen : ¬ 0 < w.redis.ttl w.now (loginLockKey e)) (hfailed : w.failedAttempt env e = some redis)
    (htime : a.time = w.now) (he : a.email = e) (hf : a.failed = true) :
    Agrees env { w with redis := redis } (a :: log) e := by
  have hold : ∀ t, Triggered env.settings.loginMaxAttempts env.settings.lockoutSeconds e log t →
      ¬ w.now < t + env.settings.lockoutSeconds := fun t ht hlive =>
    hopen (h.locked_iff.mpr ⟨t, ht, hlive⟩)
  have hpos : w.now < w.now + env.settings.lockoutSeconds := by
    have := env.settings.lockoutSeconds_pos
    omega
  obtain ⟨n, hcounts, hplace⟩ := h.counts
  have hle := place_le env.settings.attempts_pos w.now log (L := env.settings.lockoutSeconds) (e := e)
  obtain ⟨redis', hredis, hcase⟩ := failedAttempt_of_counts env hcounts
  obtain rfl := Option.some.inj (hfailed.symm.trans hredis)
  have htriggered : ∀ t, Triggered env.settings.loginMaxAttempts env.settings.lockoutSeconds e
      (a :: log) t ↔ (n + 1 = env.settings.loginMaxAttempts ∧ t = w.now) ∨
        Triggered env.settings.loginMaxAttempts env.settings.lockoutSeconds e log t := by
    intro t
    rw [triggered_cons, htime, hplace]
    simp [he, hf]
  have hstreak := openStreak_failed (M := env.settings.loginMaxAttempts)
    (L := env.settings.lockoutSeconds) log he hf
  rw [htime, hplace] at hstreak
  refine ⟨?_, ?_, ?_⟩
  · intro t ht
    rcases (htriggered t).mp ht with ⟨-, rfl⟩ | ht
    · exact Nat.le_refl _
    · exact h.past t ht
  · rw [hstreak]
    rcases hcase with ⟨hlt, hattempts, -⟩ | ⟨hge, hattempts, -⟩
    · rw [if_neg (by omega), Option.bind_some, hattempts]
      simp only [hpos, if_true]
    · rw [if_pos (by omega), Option.bind_none, hattempts]
  · intro c
    simp only [htriggered]
    rcases hcase with ⟨hlt, -, hlock⟩ | ⟨hge, -, hlock⟩
    · rw [hlock, h.lock]
      constructor
      · rintro ⟨t, ht, hlive, rfl⟩
        exact ⟨t, .inr ht, hlive, rfl⟩
      · rintro ⟨t, ⟨hM, -⟩ | ht, hlive, rfl⟩
        · omega
        · exact ⟨t, ht, hlive, rfl⟩
    · rw [hlock]
      constructor
      · intro hc
        exact ⟨w.now, .inl ⟨by omega, rfl⟩, hpos, (Option.some.inj hc).symm⟩
      · rintro ⟨t, ⟨-, rfl⟩ | ht, hlive, rfl⟩
        · rfl
        · exact absurd hlive (hold t ht)

/-- A successful login for `e` while `e` is not locked takes both keys away. -/
theorem Agrees.succeeded (h : Agrees env w log e)
    (hopen : ¬ 0 < w.redis.ttl w.now (loginLockKey e)) (hnow : w'.now = w.now)
    (hattempts : w'.redis.look w.now (loginAttemptsKey e) = none)
    (hlock : w'.redis.look w.now (loginLockKey e) = none) (he : a.email = e)
    (hf : a.failed = false) (hs : a.succeeded = true) : Agrees env w' (a :: log) e := by
  have htriggered : ∀ t, Triggered env.settings.loginMaxAttempts env.settings.lockoutSeconds e
      (a :: log) t → Triggered env.settings.loginMaxAttempts env.settings.lockoutSeconds e log t := by
    intro t ht
    rcases triggered_cons.mp ht with ⟨-, hf', -⟩ | ht
    · rw [hf] at hf'; cases hf'
    · exact ht
  refine ⟨?_, ?_, ?_⟩
  · intro t ht
    rw [hnow]
    exact h.past t (htriggered t ht)
  · rw [hnow, hattempts, openStreak_succeeded log he hf hs, Option.bind_none]
  · intro c
    rw [hnow, hlock]
    constructor
    · intro hc; cases hc
    · rintro ⟨t, ht, hlive, -⟩
      exact absurd (h.locked_iff.mpr ⟨t, htriggered t ht, hlive⟩) hopen

/-- Every call keeps the agreement, for its own email and for every other one. -/
theorem Agrees.call (h : ∀ e, Agrees env w log e) (email password : String) (d : IssueDraws) :
    ∀ e, Agrees env (serve env w (.login email password d)).2
      (⟨w.now, env.lower email, (serve env w (.login email password d)).1⟩ :: log) e := by
  intro e
  rw [serve_login]
  dsimp only
  have he := h (env.lower email)
  by_cases hlock : 0 < w.redis.ttl w.now (loginLockKey (env.lower email))
  · rw [if_pos hlock]
    exact (h e).unaffected rfl rfl rfl (.inr ⟨rfl, rfl⟩)
  · rw [if_neg hlock]
    cases hu : (w.userByEmail env (env.lower email)).filter (credentialsValid env password) with
    | none =>
      obtain ⟨n, hcounts, -⟩ := he.counts
      obtain ⟨redis, hredis, -⟩ := failedAttempt_of_counts env hcounts
      rw [hredis]
      by_cases hee : env.lower email = e
      · subst hee
        exact he.failed hlock hredis rfl rfl rfl
      · refine (h e).unaffected rfl ?_ ?_ (.inl hee)
        · exact failedAttempt_look hredis _ (by simpa using Ne.symm hee) (by simp)
        · exact failedAttempt_look hredis _ (by simp) (by simpa using Ne.symm hee)
    | some user =>
      dsimp only
      by_cases hv : user.isEmailVerified = false
      · rw [if_pos hv]
        exact (h e).unaffected rfl rfl rfl (.inr ⟨rfl, rfl⟩)
      · rw [if_neg hv]
        by_cases hee : env.lower email = e
        · subst hee
          refine he.succeeded hlock rfl ?_ ?_ rfl rfl rfl
          · simp [World.recordToken]
          · simp [World.recordToken]
        · refine (h e).unaffected rfl ?_ ?_ (.inl hee)
          · simp [World.recordToken, Ne.symm hee]
          · simp [World.recordToken, Ne.symm hee]

end Agreement

/-- The store agrees with the log at the end of every run of login calls. -/
theorem agrees_after (env : Env) (now : Nat) (calls : List LoginCall) (e : String) :
    Agrees env ((LoginRun.start now).after env calls).world
      ((LoginRun.start now).after env calls).log e := by
  have hrun : ∀ (calls : List LoginCall) (h : LoginRun), (∀ e, Agrees env h.world h.log e) →
      ∀ e, Agrees env (h.after env calls).world (h.after env calls).log e := by
    intro calls
    induction calls with
    | nil => exact fun h hh => hh
    | cons a as ih =>
      intro h hh
      apply ih
      exact Agrees.call (fun e => (hh e).later a.wait a.users) a.email a.password a.draws
  exact hrun calls _ (fun e => .start env now e) e

/-- A login call is turned away by the lock exactly when some failed check for its
email was the last of a full streak less than a lockout ago; it is then told the rest
of the lockout, and changes nothing. -/
theorem lockout_iff (env : Env) (now : Nat) (calls : List LoginCall) (call : LoginCall) :
    let h := (LoginRun.start now).after env calls
    let t := (h.meets call).now
    let L := env.settings.lockoutSeconds
    let Full := fun tf => Triggered env.settings.loginMaxAttempts L (env.lower call.email) h.log tf ∧
      tf ≤ t ∧ t < tf + L
    ((∃ message retryAfterSeconds,
        (h.serves env call).1 = .error (.accountLockedError message retryAfterSeconds)) ↔
      ∃ tf, Full tf) ∧
    ∀ tf, Full tf → h.serves env call =
      (.error (.accountLockedError "Too many failed login attempts. Try again later."
        (tf + L - t : Int)), h.meets call) := by
  intro h t L Full
  have hagrees : Agrees env (h.meets call) h.log (env.lower call.email) :=
    (agrees_after env now calls (env.lower call.email)).later call.wait call.users
  have hlocked : ∀ tf, Full tf → h.serves env call =
      (.error (.accountLockedError "Too many failed login attempts. Try again later."
        (tf + L - t : Int)), h.meets call) := by
    rintro tf ⟨htf, -, hlive⟩
    have hpos := hagrees.locked_iff.mpr ⟨tf, htf, hlive⟩
    have httl := hagrees.ttl htf hlive
    unfold LoginRun.serves
    rw [serve_login, if_pos hpos, httl]
    simp [t, L]
  refine ⟨?_, hlocked⟩
  constructor
  · rintro ⟨message, retry, hr⟩
    by_contra hnone
    have hopen : ¬ 0 < (h.meets call).redis.ttl (h.meets call).now
        (loginLockKey (env.lower call.email)) := by
      intro hpos
      obtain ⟨tf, htf, hlive⟩ := hagrees.locked_iff.mp hpos
      exact hnone ⟨tf, htf, hagrees.past tf htf, hlive⟩
    unfold LoginRun.serves at hr
    rw [serve_login, if_neg hopen] at hr
    split at hr
    · split at hr <;> cases hr
    · split at hr <;> cases hr
  · rintro ⟨tf, hfull⟩
    rw [hlocked tf hfull]
    exact ⟨_, _, rfl⟩

/-! ### Five guesses -/

/-- Ada mistypes her password five times, a minute apart. -/
def adaMistypes : List LoginCall :=
  List.replicate 5 ⟨60, [ada], "Ada@example.com", "guess", plainDraws .one⟩

/-- The fifth check, at second 1300, is the last of a full streak. A minute later the right password
is turned away. -/
example :
    let h := (LoginRun.start 1000).after plainEnv adaMistypes
    Triggered 5 900 "ada@example.com" h.log 1300 ∧
      (h.serves plainEnv ⟨60, [ada], "ada@example.com", "correct horse", plainDraws .one⟩).1 =
        .error (.accountLockedError "Too many failed login attempts. Try again later." 840) := by
  decide +kernel

end TaskMgtApp.Auth
