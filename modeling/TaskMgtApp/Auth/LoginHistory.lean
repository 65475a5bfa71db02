import TaskMgtApp.Auth.Credentials

/-!
# Login authenticates exactly the right people

Who may log in, read from the log alone: the password of an account is the one given
to its registration or to the latest successful reset, and its address is verified
once `verify_email` has succeeded with the token of its registration. The rows of
`users` agree with the log, so the outcome of a login does too.
-/
namespace TaskMgtApp.Auth

open TaskMgtApp.Common
open TaskMgtApp.Lib.ExpiringStore

/-! ## What the log says of an account -/

/-- The request gave the account `u` the password `p`; `log` is what was served before it. -/
def Entry.setsPassword (e : Entry) (log : List Entry) (u : UUID) (p : String) : Prop :=
  (∃ email fullName d user x, e.request = .register email p fullName d ∧
    e.outcome = .ok (.registered user x) ∧ user.id = u) ∨
  (∃ x salt, e.request = .resetPassword x p salt ∧ e.outcome = .ok .none ∧ ResetIssued log x u)

/-- The most recent password given to the account `u` is `p`. -/
def PasswordIs : List Entry → UUID → String → Prop
  | [], _, _ => False
  | e :: log, u, p =>
      e.setsPassword log u p ∨ ((∀ q, ¬ e.setsPassword log u q) ∧ PasswordIs log u p)

/-- The request verified the address of the account `u` with the token of its registration. -/
def Entry.verifies (e : Entry) (log : List Entry) (u : UUID) : Prop :=
  ∃ x, e.request = .verifyEmail x ∧ e.outcome = .ok .none ∧ Registered log x u

/-- Some request of the log verified the address of the account `u`. -/
def EmailVerified : List Entry → UUID → Prop
  | [], _ => False
  | e :: log, u => e.verifies log u ∨ EmailVerified log u

section Log
variable {e : Entry} {log : List Entry} {u : UUID} {p q : String}

theorem Entry.setsPassword_unique (hp : e.setsPassword log u p) (hq : e.setsPassword log u q) :
    p = q := by
  rcases hp with ⟨_, _, _, _, _, hr, -⟩ | ⟨_, _, hr, -⟩
  · rcases hq with ⟨_, _, _, _, _, hr', -⟩ | ⟨_, _, hr', -⟩
    · rw [hr] at hr'
      cases hr'
      rfl
    · rw [hr] at hr'
      cases hr'
  · rcases hq with ⟨_, _, _, _, _, hr', -⟩ | ⟨_, _, hr', -⟩
    · rw [hr] at hr'
      cases hr'
    · rw [hr] at hr'
      cases hr'
      rfl

theorem PasswordIs.unique (hp : PasswordIs log u p) (hq : PasswordIs log u q) : p = q := by
  induction log with
  | nil => exact hp.elim
  | cons e log ih =>
    rcases hp with hp | ⟨hnot, hp⟩
    · rcases hq with hq | ⟨hnot, -⟩
      · exact e.setsPassword_unique hp hq
      · exact absurd hp (hnot p)
    · rcases hq with hq | ⟨-, hq⟩
      · exact absurd hq (hnot q)
      · exact ih hp hq

/-- Only a registered address is verified. -/
theorem EmailVerified.registered (h : EmailVerified log u) : ∃ x, Registered log x u := by
  induction log with
  | nil => exact h.elim
  | cons e log ih =>
    rcases h with ⟨x, -, -, hx⟩ | h
    · exact ⟨x, hx.cons e⟩
    · obtain ⟨x, hx⟩ := ih h
      exact ⟨x, hx.cons e⟩

end Log

/-! ## The rows agree with the log -/

/-- What the log says of the accounts is what their rows hold. -/
structure Histories (env : Env) (t : Trace) : Prop where
  password : ∀ row ∈ t.world.users, ∃ p salt, row.passwordHash = env.hash p salt ∧
    PasswordIs t.log row.id p
  verified : ∀ row ∈ t.world.users, row.isEmailVerified = true ↔ EmailVerified t.log row.id
  registered : ∀ x u, Registered t.log x u → ∃ row ∈ t.world.users, row.id = u
  counters : ∀ email c, t.world.redis.look t.world.now (loginAttemptsKey email) = some c →
    ∃ n, c.value = .num n

section Steps
variable {env : Env} {t : Trace} {r : Request} {o : Except Exc Reply} {w' : World}

theorem Histories.start (env : Env) (now : Nat) : Histories env (Trace.start now []) where
  password row hrow := by cases hrow
  verified row hrow := by cases hrow
  registered x u h := by
    obtain ⟨e, he, -⟩ := h
    cases he
  counters email c hc := by simp [Trace.start] at hc

theorem Histories.wait (h : Histories env t) (n : Nat) : Histories env (t.step env (.wait n)) where
  password := h.password
  verified := h.verified
  registered := h.registered
  counters email c hc := h.counters email c (Store.look_of_later (Nat.le_add_right _ n) hc)

/-- Rows may change in what does not concern a login by password. -/
theorem Histories.users (h : Histories env t) {g : User → User}
    (hg : ∀ row, (g row).id = row.id ∧ (g row).passwordHash = row.passwordHash ∧
      (g row).isEmailVerified = row.isEmailVerified) :
    Histories env { t with world := { t.world with users := t.world.users.map g } } where
  password row hrow := by
    obtain ⟨row, hmem, rfl⟩ := List.mem_map.mp hrow
    rw [(hg row).1, (hg row).2.1]
    exact h.password row hmem
  verified row hrow := by
    obtain ⟨row, hmem, rfl⟩ := List.mem_map.mp hrow
    rw [(hg row).1, (hg row).2.2]
    exact h.verified row hmem
  registered x u hx := by
    obtain ⟨row, hmem, rfl⟩ := h.registered x u hx
    exact ⟨g row, List.mem_map_of_mem hmem, (hg row).1⟩
  counters := h.counters

/-- The counters stay numbers. -/
theorem Histories.counters_after (h : Histories env t) (he : Effect env t.world r o w')
    (email : String) (c : Cell Value) (hc : w'.redis.look w'.now (loginAttemptsKey email) = some c) :
    ∃ n, c.value = .num n := by
  rw [he.now] at hc
  rcases he.look_before hc with hc | hwrote
  · exact h.counters email c hc
  · generalize hk : loginAttemptsKey email = k at hwrote
    cases hwrote with
    | counter => exact ⟨_, rfl⟩
    | _ => simp at hk

/-- The registered accounts stay, if the rows do and the request registers none. -/
theorem Histories.registered_after (h : Histories env t)
    (hkeep : ∀ row ∈ t.world.users, ∃ row' ∈ w'.users, row'.id = row.id)
    (hregister : ∀ user x, o ≠ .ok (.registered user x)) (x : String) (u : UUID)
    (hx : Registered (⟨t.world, r, o⟩ :: t.log) x u) : ∃ row ∈ w'.users, row.id = u := by
  obtain ⟨e, hmem, user, ho, hu⟩ := hx
  rcases List.mem_cons.mp hmem with rfl | hmem
  · exact absurd ho (hregister user x)
  · obtain ⟨row, hrow, hid⟩ := h.registered x u ⟨e, hmem, user, ho, hu⟩
    obtain ⟨row', hrow', hid'⟩ := hkeep row hrow
    exact ⟨row', hrow', hid'.trans hid⟩

/-- A write to one account keeps all rows. -/
theorem exists_applyRow (now : Nat) {users users' : List User} {x : UserWrite}
    (husers : users' = users.map fun row => x.applyRow now row) :
    ∀ row ∈ users, ∃ row' ∈ users', row'.id = row.id := by
  intro row hrow
  rw [husers]
  exact ⟨_, List.mem_map_of_mem hrow, (applyRow_keeps now row x).1⟩

/-- A request that gives no account a password, verifies none and creates none. -/
theorem Histories.idle (h : Histories env t) (he : Effect env t.world r o w')
    (husers : w'.users = t.world.users)
    (hpassword : ∀ u p, ¬ (⟨t.world, r, o⟩ : Entry).setsPassword t.log u p)
    (hverify : ∀ u, ¬ (⟨t.world, r, o⟩ : Entry).verifies t.log u)
    (hregister : ∀ user x, o ≠ .ok (.registered user x)) :
    Histories env ⟨w', ⟨t.world, r, o⟩ :: t.log⟩ where
  password row hrow := by
    obtain ⟨p, salt, hhash, hp⟩ := h.password row (husers ▸ hrow)
    exact ⟨p, salt, hhash, .inr ⟨hpassword row.id, hp⟩⟩
  verified row hrow := by
    rw [h.verified row (husers ▸ hrow)]
    exact ⟨.inr, fun hv => hv.resolve_left (hverify row.id)⟩
  registered := h.registered_after (fun row hrow => ⟨row, husers ▸ hrow, rfl⟩) hregister
  counters := h.counters_after he

/-- A registration adds an account with its password and an address not yet verified. -/
theorem Histories.register (h : Histories env t) {email password fullName : String}
    {d : RegisterDraws} {row : User} {x : String}
    (he : Effect env t.world (.register email password fullName d) (.ok (.registered row x)) w')
    (hrow : row = t.world.newUser d.userId (env.lower email) (env.hash password d.salt) fullName)
    (haccepts : World.accepts t.world.users row = true) (husers : w'.users = t.world.users ++ [row]) :
    Histories env ⟨w', ⟨t.world, .register email password fullName d,
      .ok (.registered row x)⟩ :: t.log⟩ where
  password row' hrow' := by
    rw [husers] at hrow'
    rcases List.mem_append.mp hrow' with hold | hnew
    · obtain ⟨p, salt, hhash, hp⟩ := h.password row' hold
      refine ⟨p, salt, hhash, .inr ⟨?_, hp⟩⟩
      intro q hq
      rcases hq with ⟨_, _, _, user, y, -, ho, hid⟩ | ⟨_, _, hr, -⟩
      · cases ho
        exact (accepts_spec haccepts hold).1 hid.symm
      · cases hr
    · obtain rfl := List.mem_singleton.mp hnew
      refine ⟨password, d.salt, by rw [hrow]; rfl, .inl (.inl ?_)⟩
      exact ⟨email, fullName, d, row', x, rfl, rfl, rfl⟩
  verified row' hrow' := by
    have hnot : ∀ u, ¬ (⟨t.world, .register email password fullName d, .ok (.registered row x)⟩ :
        Entry).verifies t.log u := by
      intro u hv
      obtain ⟨y, hr, -⟩ := hv
      cases hr
    rw [husers] at hrow'
    rcases List.mem_append.mp hrow' with hold | hnew
    · rw [h.verified row' hold]
      exact ⟨.inr, fun hv => hv.resolve_left (hnot row'.id)⟩
    · obtain rfl := List.mem_singleton.mp hnew
      constructor
      · intro hv
        rw [hrow] at hv
        cases hv
      · intro hv
        obtain ⟨y, hy⟩ := (hv.resolve_left (hnot row'.id)).registered
        obtain ⟨other, hother, hid⟩ := h.registered y row'.id hy
        exact absurd hid (accepts_spec haccepts hother).1
  registered y u hy := by
    rw [husers]
    obtain ⟨e, hmem, user, ho, rfl⟩ := hy
    rcases List.mem_cons.mp hmem with rfl | hmem
    · cases ho
      exact ⟨row, by simp, rfl⟩
    · obtain ⟨other, hother, hid⟩ := h.registered y user.id ⟨e, hmem, user, ho, rfl⟩
      exact ⟨other, List.mem_append_left _ hother, hid⟩
  counters := h.counters_after he

/-- A verification sets the flag of the account that was registered with the token. -/
theorem Histories.verifyEmail (h : Histories env t) (hledger : Ledger env t)
    (honce : OneTimeTokens t.log) {x : String} {user : User} (huser : user ∈ t.world.users)
    (hx : Registered t.log x user.id) (he : Effect env t.world (.verifyEmail x) (.ok .none) w')
    (husers : w'.users = t.world.users.map fun row =>
      (UserWrite.emailVerified user).applyRow t.world.now row) :
    Histories env ⟨w', ⟨t.world, .verifyEmail x, .ok .none⟩ :: t.log⟩ where
  password row hrow := by
    rw [husers] at hrow
    obtain ⟨row, hmem, rfl⟩ := List.mem_map.mp hrow
    have hhash : ((UserWrite.emailVerified user).applyRow t.world.now row).passwordHash =
        row.passwordHash := by
      simp only [UserWrite.applyRow]
      split <;> rfl
    rw [(applyRow_keeps t.world.now row _).1, hhash]
    obtain ⟨p, salt, hh, hp⟩ := h.password row hmem
    refine ⟨p, salt, hh, .inr ⟨?_, hp⟩⟩
    intro q hq
    rcases hq with ⟨_, _, _, _, _, hr, -⟩ | ⟨_, _, hr, -⟩ <;> cases hr
  verified row hrow := by
    rw [husers] at hrow
    obtain ⟨row, hmem, rfl⟩ := List.mem_map.mp hrow
    rw [(applyRow_keeps t.world.now row _).1]
    by_cases hid : row.id = user.id
    · obtain rfl := hledger.table.ids.eq_of_key hmem huser hid
      have hflag : ((UserWrite.emailVerified row).applyRow t.world.now row).isEmailVerified = true := by
        cases hv : row.isEmailVerified <;> simp [UserWrite.applyRow, hv]
      exact ⟨fun _ => .inl ⟨x, rfl, rfl, hx⟩, fun _ => hflag⟩
    · have hsame : (UserWrite.emailVerified user).applyRow t.world.now row = row :=
        if_neg fun hand => hid hand.1
      rw [hsame, h.verified row hmem]
      refine ⟨.inr, fun hv => hv.resolve_left ?_⟩
      intro hv
      obtain ⟨y, hr, -, hy⟩ := hv
      cases hr
      exact hid (honce.unique true true x row.id user.id hy hx).2
  registered := h.registered_after (exists_applyRow t.world.now husers) (by simp)
  counters := h.counters_after he

/-- A reset gives its password to the account for which the link was issued. -/
theorem Histories.resetPassword (h : Histories env t) (hledger : Ledger env t)
    (honce : OneTimeTokens t.log) {x newPassword salt : String} {user : User}
    (huser : user ∈ t.world.users) (hx : ResetIssued t.log x user.id)
    (he : Effect env t.world (.resetPassword x newPassword salt) (.ok .none) w')
    (husers : w'.users = t.world.users.map fun row =>
      (UserWrite.passwordHash user (env.hash newPassword salt)).applyRow t.world.now row) :
    Histories env ⟨w', ⟨t.world, .resetPassword x newPassword salt, .ok .none⟩ :: t.log⟩ where
  password row hrow := by
    rw [husers] at hrow
    obtain ⟨row, hmem, rfl⟩ := List.mem_map.mp hrow
    rw [(applyRow_keeps t.world.now row _).1]
    by_cases hid : row.id = user.id
    · obtain rfl := hledger.table.ids.eq_of_key hmem huser hid
      refine ⟨newPassword, salt, ?_, .inl (.inr ⟨x, salt, rfl, rfl, hx⟩)⟩
      by_cases hh : row.passwordHash = env.hash newPassword salt <;> simp [UserWrite.applyRow, hh]
    · have hsame : (UserWrite.passwordHash user (env.hash newPassword salt)).applyRow t.world.now row =
          row := if_neg fun hand => hid hand.1
      rw [hsame]
      obtain ⟨p, salt', hhash, hp⟩ := h.password row hmem
      refine ⟨p, salt', hhash, .inr ⟨?_, hp⟩⟩
      intro q hq
      rcases hq with ⟨_, _, _, _, _, hr, -⟩ | ⟨y, _, hr, -, hy⟩
      · cases hr
      · cases hr
        exact hid (honce.unique false false x row.id user.id hy hx).2
  verified row hrow := by
    rw [husers] at hrow
    obtain ⟨row, hmem, rfl⟩ := List.mem_map.mp hrow
    have hflag : ((UserWrite.passwordHash user (env.hash newPassword salt)).applyRow t.world.now
        row).isEmailVerified = row.isEmailVerified := by
      simp only [UserWrite.applyRow]
      split <;> rfl
    rw [(applyRow_keeps t.world.now row _).1, hflag, h.verified row hmem]
    refine ⟨.inr, fun hv => hv.resolve_left ?_⟩
    intro hv
    obtain ⟨y, hr, -⟩ := hv
    cases hr
  registered := h.registered_after (exists_applyRow t.world.now husers) (by simp)
  counters := h.counters_after he

theorem Histories.request (h : Histories env t) (hledger : Ledger env t)
    (honce : OneTimeTokens t.log) (he : Effect env t.world r o w') :
    Histories env ⟨w', ⟨t.world, r, o⟩ :: t.log⟩ := by
  have he' := he
  cases he with
  | registered email password fullName d hnone haccepts =>
    exact h.register he' rfl haccepts rfl
  | verified x userId user htext huser =>
    obtain rfl := World.id_of_userById huser
    obtain ⟨c, hc, hv, hx⟩ := hledger.verifyCell htext
    exact h.verifyEmail hledger honce (List.mem_of_find?_eq_some huser) hx he' rfl
  | reset x newPassword salt userId user htext huser =>
    obtain rfl := World.id_of_userById huser
    obtain ⟨c, hc, hv, hx⟩ := hledger.resetCell htext
    exact h.resetPassword hledger honce (List.mem_of_find?_eq_some huser) hx he' rfl
  | loggedOut | alreadyLoggedOut | attemptFailed | loggedIn | unknownEmail | resetRequested | refreshed
  | refused | malformedSubject =>
    apply h.idle he' rfl
    · intro u p hp
      rcases hp with ⟨_, _, _, _, _, hr, ho, -⟩ | ⟨_, _, hr, ho, -⟩
      · cases hr <;> cases ho
      · cases hr <;> cases ho
    · intro u hv
      obtain ⟨x, hr, ho, -⟩ := hv
      cases hr <;> cases ho
    · intro user x ho
      cases ho

end Steps

theorem histories_after (env : Env) (now : Nat) (actions : List Action)
    (hfresh : Fresh (actions.flatMap Action.requests)) :
    Histories env ((Trace.start now []).after env actions) := by
  refine ledger_induction tableOk_nil hfresh (.start env now) ?_
  intro t a hledger honce h hf
  cases a with
  | wait n => exact h.wait n
  | request r => exact h.request hledger honce (serve_effect env t.world r)
  | setActive id isActive =>
    apply h.users
    intro row
    split <;> exact ⟨rfl, rfl, rfl⟩
  | softDelete id =>
    apply h.users
    intro row
    split <;> exact ⟨rfl, rfl, rfl⟩

/-! ## The outcome of a login -/

/-- The accounts that a login with the address `email` may enter. -/
def IsAccount (env : Env) (w : World) (email : String) (row : User) : Prop :=
  row ∈ w.users ∧ row.email = env.lower email ∧ row.deletedAt = none ∧ row.isActive = true

theorem userByEmail_eq_some_iff {env : Env} {w : World} (htable : TableOk w.users)
    (hlower : ∀ s, env.lower (env.lower s) = env.lower s) {email : String} {row : User} :
    w.userByEmail env (env.lower email) = some row ↔
      row ∈ w.users ∧ row.email = env.lower email ∧ row.deletedAt = none := by
  unfold World.userByEmail
  rw [hlower]
  constructor
  · intro h
    have hp := List.find?_some h
    simp only [Bool.and_eq_true, Option.isNone_iff_eq_none, beq_iff_eq] at hp
    exact ⟨List.mem_of_find?_eq_some h, hp.2, hp.1⟩
  · intro h
    obtain ⟨hmem, hemail, hdel⟩ := h
    cases hf : w.users.find? fun u => u.deletedAt.isNone && u.email == env.lower email with
    | none =>
      have hnone := List.find?_eq_none.mp hf row hmem
      simp [hemail, hdel] at hnone
    | some other =>
      have hp := List.find?_some hf
      simp only [Bool.and_eq_true, Option.isNone_iff_eq_none, beq_iff_eq] at hp
      rw [htable.emails other (List.mem_of_find?_eq_some hf) row hmem hp.1 hdel (hp.2.trans hemail.symm)]

/-- A key that is not there is not a lock. -/
theorem not_locked {w : World} {k : String} (h : w.redis.look w.now k = none) :
    ¬ 0 < w.redis.ttl w.now k := by
  simp only [Store.ttl, h]
  split <;> decide

theorem failedAttempt_of_counter {env : Env} {w : World} {email : String}
    (h : ∀ c, w.redis.look w.now (loginAttemptsKey email) = some c → ∃ n, c.value = .num n) :
    ∃ redis, w.failedAttempt env email = some redis := by
  unfold World.failedAttempt Store.incr
  cases hc : w.redis.look w.now (loginAttemptsKey email) with
  | none => exact ⟨_, rfl⟩
  | some c =>
    obtain ⟨n, hn⟩ := h c hc
    simp [hn]

section Login
variable {env : Env} {t : Trace}

/-- The account whose password is presented is the one the credential check lets past. -/
theorem Histories.credentials_iff (h : Histories env t) (htable : TableOk t.world.users)
    (hlower : ∀ s, env.lower (env.lower s) = env.lower s)
    (hverify : ∀ p q salt, env.verify p (env.hash q salt) = true ↔ p = q) {email p : String}
    {row : User} :
    (t.world.userByEmail env (env.lower email)).filter (credentialsValid env p) = some row ↔
      IsAccount env t.world email row ∧ PasswordIs t.log row.id p := by
  rw [Option.filter_eq_some_iff, userByEmail_eq_some_iff htable hlower]
  have hpass : ∀ row ∈ t.world.users,
      env.verify p row.passwordHash = true ↔ PasswordIs t.log row.id p := by
    intro row hrow
    obtain ⟨q, salt, hhash, hq⟩ := h.password row hrow
    rw [hhash, hverify]
    constructor
    · rintro rfl
      exact hq
    · exact fun hp => hp.unique hq
  simp only [credentialsValid, Bool.and_eq_true, IsAccount]
  constructor
  · rintro ⟨⟨hmem, hemail, hdel⟩, hp, hactive⟩
    exact ⟨⟨hmem, hemail, hdel, hactive⟩, (hpass row hmem).mp hp⟩
  · rintro ⟨⟨hmem, hemail, hdel, hactive⟩, hp⟩
    exact ⟨⟨hmem, hemail, hdel⟩, (hpass row hmem).mpr hp, hactive⟩

end Login

/-- After every run from empty stores, a login that no lock stops returns a pair exactly
if the address has an account, not deleted and active, the password is the one most
recently given to it, and its address has been verified with the token of its
registration; where only the last fails the answer is `EmailNotVerifiedError`, and
otherwise `InvalidCredentialsError`. -/
theorem login_authenticates (env : Env) (hlower : ∀ s, env.lower (env.lower s) = env.lower s)
    (hverify : ∀ p q salt, env.verify p (env.hash q salt) = true ↔ p = q) (now : Nat)
    (actions : List Action) (hfresh : Fresh (actions.flatMap Action.requests))
    (email p : String) (d : IssueDraws) :
    let t := (Trace.start now []).after env actions
    let outcome := (serve env t.world (.login email p d)).1
    t.world.redis.look t.world.now (loginLockKey (env.lower email)) = none →
    ((∃ a T, outcome = .ok (.tokenPair a T)) ↔ ∃ row, IsAccount env t.world email row ∧
      PasswordIs t.log row.id p ∧ EmailVerified t.log row.id) ∧
    (outcome = .error (.emailNotVerifiedError "Please verify your email before logging in.") ↔
      ∃ row, IsAccount env t.world email row ∧ PasswordIs t.log row.id p ∧
        ¬ EmailVerified t.log row.id) ∧
    (outcome = .error (.invalidCredentialsError "Invalid email or password.") ↔
      ¬ ∃ row, IsAccount env t.world email row ∧ PasswordIs t.log row.id p) := by
  intro t outcome hlock
  have hledger : Ledger env t := ledger_after env now tableOk_nil actions hfresh
  have hhist : Histories env t := histories_after env now actions hfresh
  have hiff : ∀ row, (t.world.userByEmail env (env.lower email)).filter (credentialsValid env p) =
      some row ↔ IsAccount env t.world email row ∧ PasswordIs t.log row.id p :=
    fun row => hhist.credentials_iff hledger.table hlower hverify
  have hout : outcome = (serve env t.world (.login email p d)).1 := rfl
  rw [serve_login] at hout
  simp only [not_locked hlock, if_false] at hout
  cases hcred : (t.world.userByEmail env (env.lower email)).filter (credentialsValid env p) with
  | none =>
    have hnone : ¬ ∃ row, IsAccount env t.world email row ∧ PasswordIs t.log row.id p := by
      rintro ⟨row, hrow⟩
      rw [(hiff row).mpr hrow] at hcred
      cases hcred
    obtain ⟨redis, hredis⟩ : ∃ redis, t.world.failedAttempt env (env.lower email) = some redis :=
      failedAttempt_of_counter (hhist.counters (env.lower email))
    simp only [hcred, hredis] at hout
    rw [hout]
    refine ⟨⟨?_, ?_⟩, ⟨?_, ?_⟩, ⟨fun _ => hnone, fun _ => rfl⟩⟩
    · rintro ⟨a, T, h⟩
      cases h
    · rintro ⟨row, haccount, hpass, -⟩
      exact absurd ⟨row, haccount, hpass⟩ hnone
    · intro h
      cases h
    · rintro ⟨row, haccount, hpass, -⟩
      exact absurd ⟨row, haccount, hpass⟩ hnone
  | some user =>
    obtain ⟨haccount, hpass⟩ := (hiff user).mp hcred
    have honly : ∀ row, IsAccount env t.world email row ∧ PasswordIs t.log row.id p → row = user := by
      intro row hrow
      exact Option.some.inj (((hiff row).mpr hrow).symm.trans hcred)
    have hflag := hhist.verified user haccount.1
    simp only [hcred] at hout
    by_cases hver : user.isEmailVerified = false
    · have hnot : ¬ EmailVerified t.log user.id := by
        rw [← hflag, hver]
        decide
      rw [if_pos hver] at hout
      rw [hout]
      refine ⟨⟨?_, ?_⟩, ⟨fun _ => ⟨user, haccount, hpass, hnot⟩, fun _ => rfl⟩, ⟨?_, ?_⟩⟩
      · rintro ⟨a, T, h⟩
        cases h
      · rintro ⟨row, hrow, hp, hv⟩
        rw [honly row ⟨hrow, hp⟩] at hv
        exact absurd hv hnot
      · intro h
        cases h
      · exact fun h => absurd ⟨user, haccount, hpass⟩ h
    · have hv : EmailVerified t.log user.id := hflag.mp (by simpa using hver)
      rw [if_neg hver] at hout
      rw [hout]
      refine ⟨⟨fun _ => ⟨user, haccount, hpass, hv⟩, fun _ => ⟨_, _, rfl⟩⟩, ⟨?_, ?_⟩, ⟨?_, ?_⟩⟩
      · intro h
        cases h
      · rintro ⟨row, hrow, hp, hn⟩
        rw [honly row ⟨hrow, hp⟩] at hn
        exact absurd hv hn
      · intro h
        cases h
      · exact fun h => absurd ⟨user, haccount, hpass⟩ h

/-- Ada, who has joined, can no longer log in with the password of her registration once
she has reset it. -/
theorem login_authenticates_reset :
    let t := (Trace.start 1000 []).after saltedEnv
      (adaJoins ++ [.request (.resetPassword "x1" "battery staple" "s1")])
    ¬ ∃ row, IsAccount saltedEnv t.world "Ada@example.com" row ∧
      PasswordIs t.log row.id "correct horse" := by
  intro t
  have hlogin := login_authenticates saltedEnv saltedEnv_lower saltedEnv_verify 1000
    (adaJoins ++ [.request (.resetPassword "x1" "battery staple" "s1")]) (by decide +kernel)
    "Ada@example.com" "correct horse" (plainDraws .two) (by decide +kernel)
  exact hlogin.2.2.mp (by decide +kernel)

end TaskMgtApp.Auth
