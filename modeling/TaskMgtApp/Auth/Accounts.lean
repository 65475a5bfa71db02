import TaskMgtApp.Auth.History
import TaskMgtApp.Lib.Rows

/-!
# Runs in which accounts come and go

A trace serves one request after the other; in between time passes, and somebody
with access to the database may deactivate, reactivate or soft-delete an account.
The log keeps every request with the world it met. From the log alone one reads for
whom a one-time token or a token pair was issued; `Ledger` says that the stores
agree with it.
-/
namespace TaskMgtApp.Auth

open TaskMgtApp.Common
open TaskMgtApp.Lib.ExpiringStore
open TaskMgtApp.Lib.Rows (Keyed)

/-! ## What one request writes -/

/-- The cells a request may add. -/
inductive Wrote (env : Env) (w : World) : Request → Except Exc Reply → String → Cell Value → Prop
  | verification {email password fullName : String} {d : RegisterDraws} {user : User} :
      Wrote env w (.register email password fullName d) (.ok (.registered user d.token))
        (emailVerifyKey d.token)
        ⟨.text user.id.str, some (w.now + env.settings.emailVerificationTtlHours * 3600)⟩
  | resetLink {email x : String} {user : User} :
      Wrote env w (.requestPasswordReset email x) (.ok (.resetRequested (some (user, x))))
        (pwdResetKey x) ⟨.text user.id.str, some (w.now + env.settings.passwordResetTtlMinutes * 60)⟩
  | refreshToken {r : Request} {u : UUID} {d : IssueDraws} :
      Wrote env w r (.ok (.tokenPair (w.tokenPair env u d).1 (w.tokenPair env u d).2))
        (refreshTokenKey d.refreshJti.str) ⟨.text u.str, some (w.now + env.settings.refreshSeconds)⟩
  | counter {email password : String} {d : IssueDraws} {o : Except Exc Reply} {n : Int}
      {deadline : Option Nat} :
      Wrote env w (.login email password d) o (loginAttemptsKey (env.lower email)) ⟨.num n, deadline⟩
  | lock {email password : String} {d : IssueDraws} {o : Except Exc Reply} :
      Wrote env w (.login email password d) o (loginLockKey (env.lower email))
        ⟨.text "1", some (w.now + env.settings.lockoutSeconds)⟩

section Effects
variable {env : Env} {w w' : World} {r : Request} {o : Except Exc Reply}

theorem Effect.now (h : Effect env w r o w') : w'.now = w.now := by
  cases h <;> rfl

/-- What a failed attempt leaves under a key: what was there, the counter or the lock. -/
theorem failedAttempt_before {email : String} {redis : Redis}
    (h : w.failedAttempt env email = some redis) {k : String} {c : Cell Value}
    (hc : redis.look w.now k = some c) :
    w.redis.look w.now k = some c ∨ (k = loginAttemptsKey email ∧ ∃ n, c.value = .num n) ∨
      (k = loginLockKey email ∧ c = ⟨.text "1", some (w.now + env.settings.lockoutSeconds)⟩) := by
  by_cases ha : k = loginAttemptsKey email
  · subst ha
    right
    left
    refine ⟨rfl, ?_⟩
    obtain ⟨⟨count, s⟩, hi, rfl⟩ := Option.map_eq_some_iff.mp h
    obtain ⟨m, d, rfl⟩ : ∃ (m : Int) (d : Option Nat),
        s = w.redis.put (loginAttemptsKey email) ⟨.num m, d⟩ := by
      rcases (Store.incr_eq_some w.now _ _).mp hi with ⟨-, -, hs⟩ | ⟨c, m, -, -, -, hs⟩
      · exact ⟨1, none, hs⟩
      · exact ⟨m + 1, c.deadline, hs⟩
    dsimp only at hc
    split at hc
    · simp at hc
    · obtain ⟨c', hc', hv⟩ := Store.value_of_look_expire hc
      rw [Store.look_put, if_pos rfl, Option.filter_eq_some_iff] at hc'
      obtain rfl := Option.some.inj hc'.1
      exact ⟨m, hv.symm⟩
  · by_cases hl : k = loginLockKey email
    · subst hl
      obtain ⟨⟨count, s⟩, hi, rfl⟩ := Option.map_eq_some_iff.mp h
      have hs := Store.look_incr_of_ne w.now w.now hi ha
      dsimp only at hc
      split at hc
      · right
        right
        rw [Store.look_delete, if_neg (by simp), Store.look_setEx, if_pos rfl] at hc
        split at hc
        · exact ⟨rfl, (Option.some.inj hc).symm⟩
        · cases hc
      · left
        rwa [Store.look_expire_of_ne w.now w.now _ ha, hs] at hc
    · rw [failedAttempt_look h w.now ha hl] at hc
      exact .inl hc

theorem look_recordToken {u : UUID} {d : IssueDraws} {k : String} {c : Cell Value}
    (h : (w.recordToken env u d).look w.now k = some c) :
    w.redis.look w.now k = some c ∨ (k = refreshTokenKey d.refreshJti.str ∧
      c = ⟨.text u.str, some (w.now + env.settings.refreshSeconds)⟩) := by
  unfold World.recordToken at h
  rw [Store.look_sadd, Store.look_setEx] at h
  split at h
  · rename_i hk
    split at h
    · exact .inr ⟨hk, (Option.some.inj h).symm⟩
    · cases h
  · exact .inl h

theorem look_of_delete {redis : Redis} (t : Nat) {now : Nat} {ks : Finset String} {k : String}
    {c : Cell Value} (h : (redis.delete t ks).2.look now k = some c) : redis.look now k = some c := by
  rw [Store.look_delete] at h
  split at h
  · cases h
  · exact h

/-- A cell that is there after a request was there before, or the request says why. -/
theorem Effect.look_before (h : Effect env w r o w') {k : String} {c : Cell Value}
    (hc : w'.redis.look w.now k = some c) : w.redis.look w.now k = some c ∨ Wrote env w r o k c := by
  cases h with
  | refused | unknownEmail | alreadyLoggedOut => exact .inl hc
  | registered email password fullName d =>
    rw [Store.look_setEx] at hc
    split at hc
    · rename_i hk
      split at hc
      · obtain rfl := Option.some.inj hc
        subst hk
        exact .inr .verification
      · cases hc
    · exact .inl hc
  | verified => exact .inl (look_of_delete w.now hc)
  | attemptFailed email password d redis hlock huser hfailed =>
    rcases failedAttempt_before hfailed hc with h | ⟨rfl, n, hn⟩ | ⟨rfl, rfl⟩
    · exact .inl h
    · obtain ⟨v, deadline⟩ := c
      obtain rfl : v = .num n := hn
      exact .inr .counter
    · exact .inr .lock
  | loggedIn email password d user =>
    rcases look_recordToken hc with h | ⟨rfl, rfl⟩
    · exact .inl (look_of_delete w.now h)
    · exact .inr .refreshToken
  | resetRequested email token user =>
    rw [Store.look_setEx] at hc
    split at hc
    · rename_i hk
      split at hc
      · obtain rfl := Option.some.inj hc
        subst hk
        exact .inr .resetLink
      · cases hc
    · exact .inl hc
  | reset => exact .inl (look_of_delete w.now (look_of_delete w.now (look_of_delete w.now hc)))
  | refreshed token d p u =>
    rcases look_recordToken hc with h | ⟨rfl, rfl⟩
    · rw [Store.look_srem] at h
      exact .inl (look_of_delete w.now h)
    · exact .inr .refreshToken
  | loggedOut =>
    rw [Store.look_srem] at hc
    exact .inl (look_of_delete w.now hc)
  | malformedSubject => exact .inl (look_of_delete w.now hc)

theorem sets_recordToken {u : UUID} {d : IssueDraws} {k j : String}
    (h : j ∈ (w.recordToken env u d).sets k) :
    j ∈ w.redis.sets k ∨ (k = userTokensKey u ∧ j = d.refreshJti.str) := by
  unfold World.recordToken at h
  rw [Store.sets_sadd, Store.sets_setEx] at h
  split at h
  · rename_i hk
    subst hk
    rcases Finset.mem_insert.mp h with h | h
    · exact .inr ⟨rfl, h⟩
    · exact .inl h
  · exact .inl h

theorem sets_of_delete {redis : Redis} (t : Nat) {ks : Finset String} {k j : String}
    (h : j ∈ (redis.delete t ks).2.sets k) : j ∈ redis.sets k := by
  rw [Store.sets_delete] at h
  split at h
  · simp at h
  · exact h

theorem sets_of_srem {redis : Redis} {k k' m j : String} (h : j ∈ (redis.srem k m).2.sets k') :
    j ∈ redis.sets k' := by
  rw [Store.sets_srem] at h
  split at h
  · rename_i hk
    exact hk ▸ (Finset.mem_erase.mp h).2
  · exact h

/-- A `jti` is listed because it was, or because the request has issued a pair with it. -/
theorem Effect.member_before (h : Effect env w r o w') {k j : String} (hj : j ∈ w'.redis.sets k) :
    j ∈ w.redis.sets k ∨ ∃ u d, k = userTokensKey u ∧ j = d.refreshJti.str ∧
      o = .ok (.tokenPair (w.tokenPair env u d).1 (w.tokenPair env u d).2) := by
  cases h with
  | refused | unknownEmail | alreadyLoggedOut | registered | resetRequested => exact .inl hj
  | verified => exact .inl (sets_of_delete w.now hj)
  | attemptFailed email password d redis hlock huser hfailed =>
    by_cases hk : k = loginAttemptsKey (env.lower email)
    · left
      obtain ⟨⟨count, s⟩, hi, rfl⟩ := Option.map_eq_some_iff.mp hfailed
      have hs := Store.sets_incr w.now hi
      dsimp only at hj
      split at hj
      · have hj := sets_of_delete w.now hj
        rwa [Store.sets_setEx, Store.sets_expire, hs] at hj
      · rwa [Store.sets_expire, hs] at hj
    · rw [failedAttempt_sets hfailed hk] at hj
      exact .inl hj
  | loggedIn email password d user =>
    rcases sets_recordToken hj with h | ⟨rfl, rfl⟩
    · exact .inl (sets_of_delete w.now h)
    · exact .inr ⟨user.id, d, rfl, rfl, rfl⟩
  | reset => exact .inl (sets_of_delete w.now (sets_of_delete w.now (sets_of_delete w.now hj)))
  | refreshed token d p u =>
    rcases sets_recordToken hj with h | ⟨rfl, rfl⟩
    · exact .inl (sets_of_delete w.now (sets_of_srem h))
    · exact .inr ⟨u, d, rfl, rfl, rfl⟩
  | loggedOut => exact .inl (sets_of_delete w.now (sets_of_srem hj))
  | malformedSubject => exact .inl (sets_of_delete w.now hj)

/-- A token has left the app before, or in the pair that the request returns. -/
theorem Effect.issued_before (h : Effect env w r o w') {T : String} (hT : T ∈ w'.issued) :
    T ∈ w.issued ∨ ∃ a b, o = .ok (.tokenPair a b) ∧ (T = a ∨ T = b) := by
  cases h with
  | loggedIn | refreshed =>
    rcases List.mem_cons.mp hT with rfl | hT
    · exact .inr ⟨_, _, rfl, .inl rfl⟩
    · rcases List.mem_cons.mp hT with rfl | hT
      · exact .inr ⟨_, _, rfl, .inr rfl⟩
      · exact .inl hT
  | _ => exact .inl hT

/-- A write to a loaded row keeps who it is and whether it is active. -/
theorem applyRow_keeps (now : Nat) (row : User) (x : UserWrite) :
    (x.applyRow now row).id = row.id ∧ (x.applyRow now row).email = row.email ∧
      (x.applyRow now row).isActive = row.isActive ∧
      (x.applyRow now row).deletedAt = row.deletedAt := by
  cases x with
  | insert row' => exact ⟨rfl, rfl, rfl, rfl⟩
  | emailVerified user =>
    simp only [UserWrite.applyRow]
    split <;> exact ⟨rfl, rfl, rfl, rfl⟩
  | passwordHash user hash =>
    simp only [UserWrite.applyRow]
    split <;> exact ⟨rfl, rfl, rfl, rfl⟩

/-- The accounts after a request: one more, or the same ones with other contents. -/
theorem Effect.users_after (h : Effect env w r o w') :
    (∃ row, World.accepts w.users row = true ∧ w'.users = w.users ++ [row]) ∨
      ∃ g : User → User, (∀ row, (g row).id = row.id ∧ (g row).email = row.email ∧
        (g row).isActive = row.isActive ∧ (g row).deletedAt = row.deletedAt) ∧
        w'.users = w.users.map g := by
  have hsame : w.users = w.users.map id := (List.map_id _).symm
  cases h with
  | registered email password fullName d hnone haccepts => exact .inl ⟨_, haccepts, rfl⟩
  | verified | reset => exact .inr ⟨_, fun row => applyRow_keeps w.now row _, rfl⟩
  | _ => exact .inr ⟨id, fun row => ⟨rfl, rfl, rfl, rfl⟩, hsame⟩

end Effects

/-! ## Traces -/

/-- What can happen next. -/
inductive Action where
  | wait (seconds : Nat)
  | request (r : Request)
  /-- `UPDATE users SET is_active`. -/
  | setActive (id : UUID) (isActive : Bool)
  /-- `UserRepository.delete` of the active account with this id. -/
  | softDelete (id : UUID)

/-- The requests an action serves. -/
def Action.requests : Action → List Request
  | .request r => [r]
  | _ => []

namespace World

def setActive (w : World) (id : UUID) (isActive : Bool) : World :=
  { w with users := w.users.map fun row =>
      if row.id = id then { row with isActive := isActive, updatedAt := w.now } else row }

def softDelete (w : World) (id : UUID) : World :=
  { w with users := w.users.map fun row =>
      if row.id = id ∧ row.deletedAt = none then
        { row with deletedAt := some w.now, updatedAt := w.now }
      else row }

end World

/-- One request of the log: the world it met, and what came back. -/
structure Entry where
  before : World
  request : Request
  outcome : Except Exc Reply

/-- The world, and the requests served so far, the latest first. -/
structure Trace where
  world : World
  log : List Entry

namespace Trace

/-- The beginning of a trace at second `now`, with the accounts `users` and nothing in Redis. -/
def start (now : Nat) (users : List User) : Trace where
  world := { now := now, redis := Store.empty, users := users, issued := [] }
  log := []

def step (env : Env) (t : Trace) : Action → Trace
  | .wait seconds => { t with world := { t.world with now := t.world.now + seconds } }
  | .request r =>
    { world := (serve env t.world r).2
      log := ⟨t.world, r, (serve env t.world r).1⟩ :: t.log }
  | .setActive id isActive => { t with world := t.world.setActive id isActive }
  | .softDelete id => { t with world := t.world.softDelete id }

def after (env : Env) (t : Trace) (actions : List Action) : Trace := actions.foldl (step env) t

/-- The requests served so far, the earliest first. -/
def requests (t : Trace) : List Request := t.log.reverse.map (·.request)

@[simp] theorem after_nil (env : Env) (t : Trace) : t.after env [] = t := rfl
@[simp] theorem after_cons (env : Env) (t : Trace) (a : Action) (as : List Action) :
    t.after env (a :: as) = (t.step env a).after env as := rfl

theorem requests_step (env : Env) (t : Trace) (a : Action) :
    (t.step env a).requests = t.requests ++ a.requests := by
  cases a <;> simp [step, requests, Action.requests]

theorem requests_after (env : Env) (t : Trace) (actions : List Action) :
    (t.after env actions).requests = t.requests ++ actions.flatMap Action.requests := by
  induction actions generalizing t with
  | nil => simp
  | cons a as ih => rw [after_cons, ih, requests_step, List.flatMap_cons, List.append_assoc]

theorem requests_start_after (env : Env) (now : Nat) (users : List User) (actions : List Action) :
    ((start now users).after env actions).requests = actions.flatMap Action.requests := by
  rw [requests_after]
  rfl

/-- What every action preserves, the requests drawing afresh, holds after a whole trace. -/
theorem after_induction {env : Env} {P : Trace → Prop} {t : Trace} {actions : List Action}
    (hstart : P t) (hfresh : Fresh (t.requests ++ actions.flatMap Action.requests))
    (hstep : ∀ t a, P t → Fresh (t.requests ++ a.requests) → P (t.step env a)) :
    P (t.after env actions) := by
  induction actions generalizing t with
  | nil => exact hstart
  | cons a as ih =>
    rw [List.flatMap_cons, ← List.append_assoc] at hfresh
    refine ih (hstep t a hstart hfresh.of_append) ?_
    rwa [requests_step]

end Trace

/-- The `jti`s that a request draws are new to the log. -/
theorem Fresh.drawn_new {t : Trace} {r : Request} (h : Fresh (t.requests ++ [r])) {e : Entry}
    (he : e ∈ t.log) {i j : UUID} (hi : i ∈ e.request.jtis) (hj : j ∈ r.jtis) : i ≠ j := by
  have hn := h.1
  simp only [List.flatMap_append, List.nodup_append] at hn
  refine hn.2.2 i (List.mem_flatMap.mpr ⟨e.request, ?_, hi⟩) j (by simpa using hj)
  simpa [Trace.requests] using ⟨e, he, rfl⟩

/-- So are the one-time tokens. -/
theorem Fresh.oneTimeToken_new {t : Trace} {r : Request} (h : Fresh (t.requests ++ [r])) {e : Entry}
    (he : e ∈ t.log) {x y : String} (hx : x ∈ e.request.oneTimeTokens)
    (hy : y ∈ r.oneTimeTokens) : x ≠ y := by
  have hn := h.2
  simp only [List.flatMap_append, List.nodup_append] at hn
  refine hn.2.2 x (List.mem_flatMap.mpr ⟨e.request, ?_, hx⟩) y (by simpa using hy)
  simpa [Trace.requests] using ⟨e, he, rfl⟩

/-! ## For whom something was issued -/

/-- A registration of the log made the account `u` and returned the token `x`. -/
def Registered (log : List Entry) (x : String) (u : UUID) : Prop :=
  ∃ e ∈ log, ∃ user : User, e.outcome = .ok (.registered user x) ∧ user.id = u

/-- A password-reset request of the log returned the token `x` for the account `u`. -/
def ResetIssued (log : List Entry) (x : String) (u : UUID) : Prop :=
  ∃ e ∈ log, ∃ user : User, e.outcome = .ok (.resetRequested (some (user, x))) ∧ user.id = u

/-- A login to the account `u` returned the pair, or a refresh with a token that was
issued to `u` before. -/
inductive IssuedTo (env : Env) : List Entry → String → String → UUID → Prop
  | login {e : Entry} {log : List Entry} {email password a T : String} {d : IssueDraws} {user : User}
      (hr : e.request = .login email password d) (ho : e.outcome = .ok (.tokenPair a T))
      (huser : e.before.userByEmail env (env.lower email) = some user) :
      IssuedTo env (e :: log) a T user.id
  | refresh {e : Entry} {log : List Entry} {a₀ T₀ a T : String} {d : IssueDraws} {u : UUID}
      (hr : e.request = .refreshAccessToken T₀ d) (ho : e.outcome = .ok (.tokenPair a T))
      (hu : IssuedTo env log a₀ T₀ u) : IssuedTo env (e :: log) a T u
  | earlier {e : Entry} {log : List Entry} {a T : String} {u : UUID} (h : IssuedTo env log a T u) :
      IssuedTo env (e :: log) a T u

/-- The tokens of a pair name the account `u`, each with its own type. -/
structure PairFor (env : Env) (u : UUID) (a T : String) : Prop where
  access : ∃ p, env.decode a = some p ∧ p.type = .access ∧ p.sub = u.str
  refresh : ∃ q, env.decode T = some q ∧ q.type = .refresh ∧ q.sub = u.str

/-- A refresh token with this `jti` was issued to `u`. -/
def Minted (env : Env) (log : List Entry) (j : String) (u : UUID) : Prop :=
  ∃ a T p, IssuedTo env log a T u ∧ env.decode T = some p ∧ p.jti = j

/-- Accounts are told apart by id, and active ones by email. -/
structure TableOk (users : List User) : Prop where
  ids : Keyed User.id users
  emails : ∀ a ∈ users, ∀ b ∈ users, a.deletedAt = none → b.deletedAt = none → a.email = b.email → a = b

/-- The stores agree with the log. -/
structure Ledger (env : Env) (t : Trace) : Prop where
  table : TableOk t.world.users
  pairs : ∀ a T u, IssuedTo env t.log a T u → PairFor env u a T
  issued : ∀ T ∈ t.world.issued, ∃ a b u, IssuedTo env t.log a b u ∧ (T = a ∨ T = b)
  verifyKeys : ∀ x c, t.world.redis.look t.world.now (emailVerifyKey x) = some c →
    ∃ u : UUID, c.value = .text u.str ∧ Registered t.log x u
  resetKeys : ∀ x c, t.world.redis.look t.world.now (pwdResetKey x) = some c →
    ∃ u : UUID, c.value = .text u.str ∧ ResetIssued t.log x u
  refreshKeys : ∀ j c, t.world.redis.look t.world.now (refreshTokenKey j) = some c →
    ∃ u : UUID, c.value = .text u.str ∧ Minted env t.log j u
  members : ∀ k j, j ∈ t.world.redis.sets k → ∃ u, k = userTokensKey u ∧ Minted env t.log j u
  indexKeys : ∀ u, t.world.redis.look t.world.now (userTokensKey u) = none
  owner : ∀ j u v, Minted env t.log j u → Minted env t.log j v → u = v
  drawn : ∀ j u, Minted env t.log j u → ∃ e ∈ t.log, ∃ i ∈ e.request.jtis, i.str = j

section Table
variable {users : List User}

theorem TableOk.map (h : TableOk users) {g : User → User}
    (hg : ∀ row, (g row).id = row.id ∧ (g row).email = row.email ∧
      ((g row).deletedAt = none → row.deletedAt = none)) : TableOk (users.map g) where
  ids := h.ids.map fun row _ => (hg row).1
  emails a ha b hb hda hdb he := by
    obtain ⟨x, hx, rfl⟩ := List.mem_map.mp ha
    obtain ⟨y, hy, rfl⟩ := List.mem_map.mp hb
    rw [(hg x).2.1, (hg y).2.1] at he
    rw [h.emails x hx y hy ((hg x).2.2 hda) ((hg y).2.2 hdb) he]

theorem accepts_spec {u : User} (h : World.accepts users u = true) {row : User} (hrow : row ∈ users) :
    row.id ≠ u.id ∧ (row.deletedAt = none → row.email ≠ u.email) := by
  simp only [World.accepts, Bool.and_eq_true, List.all_eq_true, decide_eq_true_eq] at h
  obtain ⟨hid, hemail⟩ := h.2 row hrow
  refine ⟨hid, fun hd he => ?_⟩
  simp [hd, he] at hemail

theorem TableOk.append (h : TableOk users) {u : User} (hu : World.accepts users u = true) :
    TableOk (users ++ [u]) where
  ids := h.ids.append fun row hrow => (accepts_spec hu hrow).1
  emails a ha b hb hda hdb he := by
    rcases List.mem_append.mp ha with ha' | ha'
    · rcases List.mem_append.mp hb with hb' | hb'
      · exact h.emails a ha' b hb' hda hdb he
      · obtain rfl := List.mem_singleton.mp hb'
        exact absurd he ((accepts_spec hu ha').2 hda)
    · obtain rfl := List.mem_singleton.mp ha'
      rcases List.mem_append.mp hb with hb' | hb'
      · exact absurd he.symm ((accepts_spec hu hb').2 hdb)
      · obtain rfl := List.mem_singleton.mp hb'
        rfl

theorem TableOk.effect {env : Env} {w w' : World} {r : Request} {o : Except Exc Reply}
    (h : TableOk w.users) (he : Effect env w r o w') : TableOk w'.users := by
  rcases he.users_after with ⟨row, haccepts, husers⟩ | ⟨g, hg, husers⟩
  · rw [husers]
    exact h.append haccepts
  · rw [husers]
    refine h.map fun row => ⟨(hg row).1, (hg row).2.1, fun hd => ?_⟩
    rwa [(hg row).2.2.2] at hd

end Table

section Steps
variable {env : Env} {t : Trace}

theorem Ledger.start (env : Env) (now : Nat) {users : List User} (h : TableOk users) :
    Ledger env (Trace.start now users) where
  table := h
  pairs a T u hi := by cases hi
  issued T hT := by cases hT
  verifyKeys x c hc := by simp [Trace.start] at hc
  resetKeys x c hc := by simp [Trace.start] at hc
  refreshKeys j c hc := by simp [Trace.start] at hc
  members k j hj := by simp [Trace.start, Store.empty] at hj
  indexKeys u := by simp [Trace.start]
  owner j u v hu := by
    obtain ⟨a, T, p, hi, -⟩ := hu
    cases hi
  drawn j u hu := by
    obtain ⟨a, T, p, hi, -⟩ := hu
    cases hi

theorem Ledger.wait (h : Ledger env t) (n : Nat) : Ledger env (t.step env (.wait n)) where
  table := h.table
  pairs := h.pairs
  issued := h.issued
  verifyKeys x c hc := h.verifyKeys x c (Store.look_of_later (Nat.le_add_right _ n) hc)
  resetKeys x c hc := h.resetKeys x c (Store.look_of_later (Nat.le_add_right _ n) hc)
  refreshKeys j c hc := h.refreshKeys j c (Store.look_of_later (Nat.le_add_right _ n) hc)
  members := h.members
  indexKeys u := Store.look_none_later (Nat.le_add_right _ n) (h.indexKeys u)
  owner := h.owner
  drawn := h.drawn

/-- Another table does not matter, as long as it is one. -/
theorem Ledger.users (h : Ledger env t) {users : List User} (husers : TableOk users) :
    Ledger env { t with world := { t.world with users := users } } where
  table := husers
  pairs := h.pairs
  issued := h.issued
  verifyKeys := h.verifyKeys
  resetKeys := h.resetKeys
  refreshKeys := h.refreshKeys
  members := h.members
  indexKeys := h.indexKeys
  owner := h.owner
  drawn := h.drawn

theorem Ledger.setActive (h : Ledger env t) (id : UUID) (isActive : Bool) :
    Ledger env (t.step env (.setActive id isActive)) := by
  refine h.users (h.table.map fun row => ?_)
  split
  · exact ⟨rfl, rfl, fun hd => hd⟩
  · exact ⟨rfl, rfl, fun hd => hd⟩

theorem Ledger.softDelete (h : Ledger env t) (id : UUID) : Ledger env (t.step env (.softDelete id)) := by
  refine h.users (h.table.map fun row => ?_)
  split
  · exact ⟨rfl, rfl, fun hd => by cases hd⟩
  · exact ⟨rfl, rfl, fun hd => hd⟩

/-- The log grows, and what it says stays true. -/
theorem Registered.cons {log : List Entry} {x : String} {u : UUID} (h : Registered log x u) (e : Entry) :
    Registered (e :: log) x u := by
  obtain ⟨e', he, hrest⟩ := h
  exact ⟨e', List.mem_cons_of_mem _ he, hrest⟩

theorem ResetIssued.cons {log : List Entry} {x : String} {u : UUID} (h : ResetIssued log x u)
    (e : Entry) : ResetIssued (e :: log) x u := by
  obtain ⟨e', he, hrest⟩ := h
  exact ⟨e', List.mem_cons_of_mem _ he, hrest⟩

theorem Minted.cons {log : List Entry} {j : String} {u : UUID} (h : Minted env log j u) (e : Entry) :
    Minted env (e :: log) j u := by
  obtain ⟨a, T, p, hi, hrest⟩ := h
  exact ⟨a, T, p, hi.earlier, hrest⟩

theorem Minted.of_cons {e : Entry} {log : List Entry} {j : String} {u : UUID}
    (h : Minted env (e :: log) j u) : Minted env log j u ∨ ∃ a T p, IssuedTo env (e :: log) a T u ∧
      e.outcome = .ok (.tokenPair a T) ∧ env.decode T = some p ∧ p.jti = j := by
  obtain ⟨a, T, p, hi, hp, hj⟩ := h
  cases hi with
  | login hr ho huser => exact .inr ⟨a, T, p, .login hr ho huser, ho, hp, hj⟩
  | refresh hr ho hu => exact .inr ⟨a, T, p, .refresh hr ho hu, ho, hp, hj⟩
  | earlier h => exact .inl ⟨a, T, p, h, hp, hj⟩

theorem PairFor.user_eq {u v : UUID} {a b T : String} (hu : PairFor env u a T) (hv : PairFor env v b T) :
    u = v := by
  obtain ⟨q, hq, -, hsub⟩ := hu.refresh
  obtain ⟨q', hq', -, hsub'⟩ := hv.refresh
  obtain rfl := Option.some.inj (hq.symm.trans hq')
  exact UUID.str_inj.mp (hsub.symm.trans hsub')

theorem pairFor_tokenPair (w : World) (u : UUID) (d : IssueDraws) :
    PairFor env u (w.tokenPair env u d).1 (w.tokenPair env u d).2 :=
  ⟨⟨_, env.decode_encode _, rfl, rfl⟩, ⟨_, env.decode_encode _, rfl, rfl⟩⟩

/-- The token of a pair that is taken for a refresh token is the second, and names the account. -/
theorem Ledger.refresh_of_pair (h : Ledger env t) {a b T : String} {u : UUID} {p : Claims}
    (hi : IssuedTo env t.log a b u) (hpair : T = a ∨ T = b)
    (hp : t.world.refreshClaims env T = some p) : T = b ∧ p.sub = u.str := by
  obtain ⟨-, hdecode, htype⟩ := issued_of_refreshClaims hp
  rcases hpair with rfl | rfl
  · obtain ⟨q, hq, haccess, -⟩ := (h.pairs _ _ _ hi).access
    obtain rfl := Option.some.inj (hdecode.symm.trans hq)
    rw [htype] at haccess
    cases haccess
  · obtain ⟨q, hq, -, hsub⟩ := (h.pairs _ _ _ hi).refresh
    obtain rfl := Option.some.inj (hdecode.symm.trans hq)
    exact ⟨rfl, hsub⟩

/-- A refresh token the app handed out was issued to the account it names. -/
theorem Ledger.issuedTo_of_refreshClaims (h : Ledger env t) {T : String} {p : Claims}
    (hp : t.world.refreshClaims env T = some p) :
    ∃ a u, IssuedTo env t.log a T u ∧ p.sub = u.str := by
  obtain ⟨a, b, u, hi, hpair⟩ := h.issued T (issued_of_refreshClaims hp).1
  obtain ⟨rfl, hsub⟩ := h.refresh_of_pair hi hpair hp
  exact ⟨a, u, hi, hsub⟩

/-- A request that returns a pair issues it to one account, with its own draws. -/
theorem Ledger.issues (h : Ledger env t) {r : Request} {o : Except Exc Reply} {w' : World}
    (he : Effect env t.world r o w') {a T : String} (ho : o = .ok (.tokenPair a T)) :
    ∃ u d, IssuedTo env (⟨t.world, r, o⟩ :: t.log) a T u ∧ d.refreshJti ∈ r.jtis ∧
      a = (t.world.tokenPair env u d).1 ∧ T = (t.world.tokenPair env u d).2 := by
  cases he with
  | loggedIn email password d user hlock huser =>
    cases ho
    exact ⟨user.id, d, .login rfl rfl (Option.filter_eq_some_iff.mp huser).1,
      by simp [Request.jtis], rfl, rfl⟩
  | refreshed token d p u hclaims hsub =>
    cases ho
    obtain ⟨b, v, hi, hv⟩ :=
      h.issuedTo_of_refreshClaims ((acceptedClaims_eq_some_iff env t.world).mp hclaims).1
    obtain rfl : u = v := UUID.str_inj.mp (hsub.symm.trans hv)
    exact ⟨u, d, .refresh rfl rfl hi, by simp [Request.jtis], rfl, rfl⟩
  | _ => cases ho

theorem Ledger.pairs_cons (h : Ledger env t) {r : Request} {o : Except Exc Reply} {w' : World}
    (he : Effect env t.world r o w') {a T : String} {u : UUID}
    (hi : IssuedTo env (⟨t.world, r, o⟩ :: t.log) a T u) : PairFor env u a T := by
  generalize hentry : (⟨t.world, r, o⟩ : Entry) = e at hi
  cases hi with
  | earlier hi => exact h.pairs _ _ _ hi
  | @login _ _ email password _ _ d user hr ho huser =>
    subst hentry
    dsimp only at hr ho huser
    subst hr ho
    cases he with
    | loggedIn _ _ _ user' hlock huser' =>
      obtain rfl := Option.some.inj (huser.symm.trans (Option.filter_eq_some_iff.mp huser').1)
      exact pairFor_tokenPair t.world user.id d
  | @refresh _ _ a₀ T₀ _ _ d _ hr ho hu =>
    subst hentry
    dsimp only at hr ho
    subst hr ho
    cases he with
    | refreshed _ _ p v hclaims hsub =>
      have hp := (acceptedClaims_eq_some_iff env t.world).mp hclaims
      obtain ⟨q, hq, -, hqsub⟩ := (h.pairs _ _ _ hu).refresh
      obtain rfl := Option.some.inj ((issued_of_refreshClaims hp.1).2.1.symm.trans hq)
      obtain rfl : u = v := UUID.str_inj.mp (hqsub.symm.trans hsub)
      exact pairFor_tokenPair t.world u d

/-- Who holds a `jti` after a request held it before, or has just been issued it. -/
theorem Ledger.minted_cases (h : Ledger env t) {r : Request} {o : Except Exc Reply} {w' : World}
    (he : Effect env t.world r o w') {j : String} {v : UUID}
    (hm : Minted env (⟨t.world, r, o⟩ :: t.log) j v) : Minted env t.log j v ∨
      ∃ d : IssueDraws, d.refreshJti ∈ r.jtis ∧ j = d.refreshJti.str ∧
        o = .ok (.tokenPair (t.world.tokenPair env v d).1 (t.world.tokenPair env v d).2) := by
  rcases hm.of_cons with hm | ⟨a, T, p, hi, ho, hp, hj⟩
  · exact .inl hm
  · right
    change o = _ at ho
    obtain ⟨u, d, -, hd, ha, hT⟩ := h.issues he ho
    have hpair : PairFor env u a T := by
      rw [ha, hT]
      exact pairFor_tokenPair t.world u d
    obtain rfl := hpair.user_eq (h.pairs_cons he hi)
    refine ⟨d, hd, ?_, by rw [ho, ha, hT]⟩
    rw [hT, World.tokenPair, env.decode_encode] at hp
    obtain rfl := Option.some.inj hp
    exact hj.symm

theorem Ledger.minted_new (h : Ledger env t) {r : Request} {o : Except Exc Reply} {w' : World}
    (he : Effect env t.world r o w') {u : UUID} {d : IssueDraws}
    (ho : o = .ok (.tokenPair (t.world.tokenPair env u d).1 (t.world.tokenPair env u d).2)) :
    Minted env (⟨t.world, r, o⟩ :: t.log) d.refreshJti.str u := by
  obtain ⟨v, d', hi, -⟩ := h.issues he ho
  obtain rfl := (pairFor_tokenPair t.world u d).user_eq (h.pairs_cons he hi)
  exact ⟨_, _, _, hi, env.decode_encode _, rfl⟩

theorem Ledger.request (h : Ledger env t) (r : Request) (hfresh : Fresh (t.requests ++ [r])) :
    Ledger env (t.step env (.request r)) := by
  have he := serve_effect env t.world r
  have hnow : (serve env t.world r).2.now = t.world.now := he.now
  have hold : ∀ {j : String} {u : UUID} {d : IssueDraws}, Minted env t.log j u → d.refreshJti ∈ r.jtis →
      j ≠ d.refreshJti.str := by
    intro j u d hm hd hj
    obtain ⟨e, he, i, hi, hij⟩ := h.drawn j u hm
    exact hfresh.drawn_new he hi hd (UUID.str_inj.mp (hij.trans hj))
  constructor
  · exact h.table.effect he
  · exact fun a T u => h.pairs_cons he
  · intro T hT
    rcases he.issued_before hT with hT | ⟨a, b, ho, hT⟩
    · obtain ⟨a, b, u, hi, hrest⟩ := h.issued T hT
      exact ⟨a, b, u, hi.earlier, hrest⟩
    · obtain ⟨u, d, hi, -⟩ := h.issues he ho
      exact ⟨a, b, u, hi, hT⟩
  · intro x c hc
    simp only [Trace.step, hnow] at hc
    rcases he.look_before hc with hc | hwrote
    · obtain ⟨u, hu, hr⟩ := h.verifyKeys x c hc
      exact ⟨u, hu, hr.cons _⟩
    · generalize hk : emailVerifyKey x = k at hwrote
      generalize ho : (serve env t.world r).1 = o at hwrote
      cases hwrote with
      | @verification email password fullName d user =>
        obtain rfl := (emailVerifyKey_inj _ _).mp hk
        exact ⟨user.id, rfl, _, List.mem_cons_self, user, ho, rfl⟩
      | _ => simp at hk
  · intro x c hc
    simp only [Trace.step, hnow] at hc
    rcases he.look_before hc with hc | hwrote
    · obtain ⟨u, hu, hr⟩ := h.resetKeys x c hc
      exact ⟨u, hu, hr.cons _⟩
    · generalize hk : pwdResetKey x = k at hwrote
      generalize ho : (serve env t.world r).1 = o at hwrote
      cases hwrote with
      | @resetLink email y user =>
        obtain rfl := (pwdResetKey_inj _ _).mp hk
        exact ⟨user.id, rfl, _, List.mem_cons_self, user, ho, rfl⟩
      | _ => simp at hk
  · intro j c hc
    simp only [Trace.step, hnow] at hc
    rcases he.look_before hc with hc | hwrote
    · obtain ⟨u, hu, hm⟩ := h.refreshKeys j c hc
      exact ⟨u, hu, hm.cons _⟩
    · generalize hk : refreshTokenKey j = k at hwrote
      generalize ho : (serve env t.world r).1 = o at hwrote
      cases hwrote with
      | @refreshToken _ u d =>
        obtain rfl := (refreshTokenKey_inj _ _).mp hk
        exact ⟨u, rfl, h.minted_new he ho⟩
      | _ => simp at hk
  · intro k j hj
    rcases he.member_before hj with hj | ⟨v, d, rfl, rfl, ho⟩
    · obtain ⟨u, hk, hm⟩ := h.members k j hj
      exact ⟨u, hk, hm.cons _⟩
    · exact ⟨v, rfl, h.minted_new he ho⟩
  · intro u
    rw [Option.eq_none_iff_forall_ne_some]
    intro c hc
    simp only [Trace.step, hnow] at hc
    rcases he.look_before hc with hc | hwrote
    · rw [h.indexKeys u] at hc
      cases hc
    · generalize hk : userTokensKey u = k at hwrote
      generalize (serve env t.world r).1 = o at hwrote
      cases hwrote <;> simp at hk
  · intro j u v hu hv
    rcases h.minted_cases he hu with hu | ⟨d, hd, rfl, ho⟩
    · rcases h.minted_cases he hv with hv | ⟨d, hd, rfl, ho⟩
      · exact h.owner j u v hu hv
      · exact absurd rfl (hold hu hd)
    · rcases h.minted_cases he hv with hv | ⟨d', hd', hj, ho'⟩
      · exact absurd rfl (hold hv hd)
      · obtain ⟨ha, hT⟩ := Reply.tokenPair.inj (Except.ok.inj (ho.symm.trans ho'))
        have hpair : PairFor env v (t.world.tokenPair env v d').1 (t.world.tokenPair env v d').2 :=
          pairFor_tokenPair t.world v d'
        rw [← ha, ← hT] at hpair
        exact (pairFor_tokenPair t.world u d).user_eq hpair
  · intro j u hm
    rcases h.minted_cases he hm with hm | ⟨d, hd, rfl, ho⟩
    · obtain ⟨e, he, hrest⟩ := h.drawn j u hm
      exact ⟨e, List.mem_cons_of_mem _ he, hrest⟩
    · exact ⟨_, List.mem_cons_self, d.refreshJti, hd, rfl⟩

theorem Ledger.step (h : Ledger env t) (a : Action) (hfresh : Fresh (t.requests ++ a.requests)) :
    Ledger env (t.step env a) := by
  cases a with
  | wait n => exact h.wait n
  | request r => exact h.request r hfresh
  | setActive id isActive => exact h.setActive id isActive
  | softDelete id => exact h.softDelete id

end Steps

theorem ledger_after (env : Env) (now : Nat) {users : List User} (husers : TableOk users)
    (actions : List Action) (hfresh : Fresh (actions.flatMap Action.requests)) :
    Ledger env ((Trace.start now users).after env actions) :=
  Trace.after_induction (.start env now husers) (by simpa [Trace.requests, Trace.start] using hfresh)
    fun _ a h hf => h.step a hf

/-! ## An account keeps its id and its email -/

/-- The account is still there, under its id and with its email. -/
def LivesOn (users : List User) (row : User) : Prop :=
  ∃ row' ∈ users, row'.id = row.id ∧ row'.email = row.email

section Keeping
variable {env : Env} {t : Trace} {w w' : World} {r : Request} {o : Except Exc Reply} {row : User}

theorem LivesOn.map {users : List User} {g : User → User} (hrow : row ∈ users)
    (hg : (g row).id = row.id ∧ (g row).email = row.email) : LivesOn (users.map g) row :=
  ⟨g row, List.mem_map_of_mem hrow, hg⟩

theorem Effect.lives_on (h : Effect env w r o w') (hrow : row ∈ w.users) : LivesOn w'.users row := by
  rcases h.users_after with ⟨new, -, husers⟩ | ⟨g, hg, husers⟩
  · exact ⟨row, husers ▸ List.mem_append_left _ hrow, rfl, rfl⟩
  · exact husers ▸ LivesOn.map hrow ⟨(hg row).1, (hg row).2.1⟩

theorem Trace.lives_on_step (env : Env) (t : Trace) (a : Action) (hrow : row ∈ t.world.users) :
    LivesOn (t.step env a).world.users row := by
  cases a with
  | wait n => exact ⟨row, hrow, rfl, rfl⟩
  | request r => exact (serve_effect env t.world r).lives_on hrow
  | setActive id isActive =>
    refine LivesOn.map hrow ?_
    split
    · exact ⟨rfl, rfl⟩
    · exact ⟨rfl, rfl⟩
  | softDelete id =>
    refine LivesOn.map hrow ?_
    split
    · exact ⟨rfl, rfl⟩
    · exact ⟨rfl, rfl⟩

theorem LivesOn.step (h : LivesOn t.world.users row) (a : Action) : LivesOn (t.step env a).world.users row := by
  obtain ⟨row', hrow', hid, hemail⟩ := h
  obtain ⟨row'', hrow'', hid', hemail'⟩ := t.lives_on_step env a hrow'
  exact ⟨row'', hrow'', hid'.trans hid, hemail'.trans hemail⟩

end Keeping

end TaskMgtApp.Auth
