import TaskMgtApp.Auth.LoginHistory
import TaskMgtApp.Auth.OneTimeLinks

/-!
# Who can get back into an account

Whoever reads the mailbox of an address can get to a login from every reachable state,
with one exception: an account that is still unverified and whose verification link is
gone. `register` refuses the address, a reset verifies nothing and no operation sends
a second verification link, so from there no continuation ends in a login.
-/
namespace TaskMgtApp.Auth

open TaskMgtApp.Common
open TaskMgtApp.Lib.ExpiringStore

/-! ## The mailbox -/

/-- The address and the token of the mail that the router sends after a request. -/
def Entry.mail (e : Entry) : Option (String × String) :=
  match e.outcome with
  | .ok (.registered user x) => some (user.email, x)
  | .ok (.resetRequested (some (user, x))) => some (user.email, x)
  | _ => none

/-- The tokens a request presents. -/
def Request.tokens : Request → List String
  | .verifyEmail x => [x]
  | .resetPassword x _ _ => [x]
  | .refreshAccessToken x _ => [x]
  | .logout x => [x]
  | _ => []

/-- The tokens that the holder of the mailbox `address` knows after a request. -/
def Entry.learn (e : Entry) (address : String) (known : List String) : List String :=
  match e.mail with
  | some (recipient, x) => if recipient = address then x :: known else known
  | none => known

/-- The actions are requests and waiting by somebody who knows the tokens `known` and
those mailed to `address` from now on. -/
def ByHolder (env : Env) (address : String) : List String → Trace → List Action → Prop
  | _, _, [] => True
  | known, t, .wait n :: actions => ByHolder env address known (t.step env (.wait n)) actions
  | known, t, .request r :: actions =>
      (∀ x ∈ r.tokens, x ∈ known) ∧
        ByHolder env address ((⟨t.world, r, (serve env t.world r).1⟩ : Entry).learn address known)
          (t.step env (.request r)) actions
  | _, _, _ :: _ => False

/-! ## States in which a lock passes -/

/-- Active accounts are told apart, and every lock ends within the lockout window. -/
structure Orderly (env : Env) (w : World) : Prop where
  table : TableOk w.users
  locks : ∀ email c, w.redis.look w.now (loginLockKey email) = some c →
    ∃ d, c.deadline = some d ∧ d ≤ w.now + env.settings.lockoutSeconds

section Orderly
variable {env : Env} {w w' : World} {r : Request} {o : Except Exc Reply}

theorem Orderly.effect (h : Orderly env w) (he : Effect env w r o w') : Orderly env w' where
  table := h.table.effect he
  locks email c hc := by
    rw [he.now] at hc ⊢
    rcases he.look_before hc with hc | hwrote
    · exact h.locks email c hc
    · generalize hk : loginLockKey email = k at hwrote
      cases hwrote with
      | lock => exact ⟨_, rfl, Nat.le_refl _⟩
      | _ => simp at hk

theorem Orderly.step {t : Trace} (h : Orderly env t.world) (a : Action) :
    Orderly env (t.step env a).world := by
  cases a with
  | wait n =>
    refine ⟨h.table, fun email c hc => ?_⟩
    obtain ⟨d, hd, hle⟩ := h.locks email c (Store.look_of_later (Nat.le_add_right _ n) hc)
    refine ⟨d, hd, ?_⟩
    change d ≤ t.world.now + n + env.settings.lockoutSeconds
    omega
  | request r => exact h.effect (serve_effect env t.world r)
  | setActive id isActive =>
    refine ⟨h.table.map fun row => ?_, h.locks⟩
    split <;> exact ⟨rfl, rfl, fun hd => hd⟩
  | softDelete id =>
    refine ⟨h.table.map fun row => ?_, h.locks⟩
    split
    · exact ⟨rfl, rfl, fun hd => by cases hd⟩
    · exact ⟨rfl, rfl, fun hd => hd⟩

theorem Orderly.after {t : Trace} (h : Orderly env t.world) (actions : List Action) :
    Orderly env (t.after env actions).world := by
  induction actions generalizing t with
  | nil => exact h
  | cons a as ih => exact ih (h.step a)

theorem Orderly.start (env : Env) (now : Nat) {users : List User} (h : TableOk users) :
    Orderly env (Trace.start now users).world :=
  ⟨h, fun email c hc => by simp [Trace.start] at hc⟩

/-- After the lockout window no lock is left. -/
theorem Orderly.lock_over (h : Orderly env w) (email : String) :
    w.redis.look (w.now + env.settings.lockoutSeconds) (loginLockKey email) = none := by
  cases hl : w.redis.look (w.now + env.settings.lockoutSeconds) (loginLockKey email) with
  | none => rfl
  | some c =>
    obtain ⟨d, hd, hle⟩ := h.locks email c (Store.look_of_later (Nat.le_add_right _ _) hl)
    obtain ⟨v, deadline⟩ := c
    obtain rfl : deadline = some d := hd
    have hlt := Store.lt_deadline hl
    omega

/-- The active account of an id. -/
theorem userById_eq_some (h : TableOk w.users) {row : User} (hrow : row ∈ w.users)
    (hdel : row.deletedAt = none) : w.userById row.id = some row := by
  unfold World.userById
  cases hf : w.users.find? fun u => u.deletedAt.isNone && u.id == row.id with
  | none =>
    have hnone := List.find?_eq_none.mp hf row hrow
    simp [hdel] at hnone
  | some other =>
    have hp := List.find?_some hf
    simp only [Bool.and_eq_true, beq_iff_eq] at hp
    rw [h.ids.eq_of_key (List.mem_of_find?_eq_some hf) hrow hp.2]

end Orderly

/-! ## Getting in -/

/-- An account of the address that may log in with the password `p`. -/
structure Enterable (env : Env) (w : World) (email p : String) (row : User) : Prop where
  account : IsAccount env w email row
  verified : row.isEmailVerified = true
  password : env.verify p row.passwordHash = true

section GettingIn
variable {env : Env} {w : World} {email p : String} {row : User}

theorem Enterable.login (h : Enterable env w email p row) (htable : TableOk w.users)
    (hlower : ∀ s, env.lower (env.lower s) = env.lower s)
    (hlock : w.redis.look w.now (loginLockKey (env.lower email)) = none) (d : IssueDraws) :
    ∃ a T, (serve env w (.login email p d)).1 = .ok (.tokenPair a T) := by
  obtain ⟨hmem, hemail, hdel, hactive⟩ := h.account
  have huser : w.userByEmail env (env.lower email) = some row :=
    (userByEmail_eq_some_iff htable hlower).mpr ⟨hmem, hemail, hdel⟩
  have hvalid : (w.userByEmail env (env.lower email)).filter (credentialsValid env p) = some row := by
    rw [huser, Option.filter_eq_some_iff]
    exact ⟨rfl, by simp [credentialsValid, h.password, hactive]⟩
  rw [serve_login]
  simp only [not_locked hlock, if_false, hvalid, h.verified]
  exact ⟨_, _, rfl⟩

end GettingIn

/-- Presenting tokens and waiting, the holder of the mailbox gets to a state in which
a login with the password `p` succeeds. -/
def Recovers (env : Env) (t : Trace) (email p : String) (known : List String)
    (actions : List Action) : Prop :=
  ByHolder env (env.lower email) known t actions ∧
    ∀ d, ∃ a T, (serve env (t.after env actions).world (.login email p d)).1 = .ok (.tokenPair a T)

/-- Register, verify and wait. -/
def joining (env : Env) (email p fullName : String) (d : RegisterDraws) : List Action :=
  [.request (.register email p fullName d), .request (.verifyEmail d.token),
    .wait env.settings.lockoutSeconds]

/-- Ask for a reset link, use it and wait. -/
def resetting (env : Env) (email p x salt : String) : List Action :=
  [.request (.requestPasswordReset email x), .request (.resetPassword x p salt),
    .wait env.settings.lockoutSeconds]

section Requests
variable {env : Env} {w : World} {email p x salt : String} {user row : User}

/-- A live key names its account. -/
theorem text_setEx {redis : Redis} {k v : String} {ex : Nat} (hex : 0 < ex)
    (hw : w.redis = redis.setEx w.now k (.text v) ex) : w.text k = some v := by
  apply text_of_look
  rw [hw, Store.look_setEx, if_pos rfl, if_pos (Nat.lt_add_of_pos_right hex)]

theorem serve_register_new {fullName : String} {d : RegisterDraws}
    (hnone : w.userByEmail env (env.lower email) = none)
    (hlower : ∀ s, env.lower (env.lower s) = env.lower s) (hemail : fits 320 (env.lower email) = true)
    (hname : fits 255 fullName = true) (hid : ∀ row ∈ w.users, row.id ≠ d.userId) :
    serve env w (.register email p fullName d) =
      (.ok (.registered (w.newUser d.userId (env.lower email) (env.hash p d.salt) fullName) d.token),
        { w with
          redis := w.redis.setEx w.now (emailVerifyKey d.token) (.text d.userId.str)
            (env.settings.emailVerificationTtlHours * 3600)
          users := w.users ++ [w.newUser d.userId (env.lower email) (env.hash p d.salt) fullName] }) := by
  have haccepts : World.accepts w.users
      (w.newUser d.userId (env.lower email) (env.hash p d.salt) fullName) = true := by
    simp only [World.accepts, World.newUser, hemail, hname, Bool.true_and, List.all_eq_true]
    intro row hrow
    unfold World.userByEmail at hnone
    rw [hlower] at hnone
    have hfree := List.find?_eq_none.mp hnone row hrow
    simp only [Bool.and_eq_true, not_and, Bool.not_eq_true] at hfree
    rw [Bool.and_eq_true, Bool.not_eq_true', Bool.and_eq_false_iff]
    refine ⟨decide_eq_true (hid row hrow), ?_⟩
    by_cases hdel : row.deletedAt.isNone = true
    · exact .inr (hfree hdel)
    · exact .inl (Bool.eq_false_iff.mpr hdel)
  rw [serve_register]
  simp only [hnone, haccepts, if_true]
  rfl

theorem serve_verifyEmail_live (env : Env) (htext : w.text (emailVerifyKey x) = some user.id.str)
    (huser : w.userById user.id = some user) :
    serve env w (.verifyEmail x) = (.ok .none,
      { w with
        redis := (w.redis.delete w.now {emailVerifyKey x}).2
        users := w.users.map fun row => (UserWrite.emailVerified user).applyRow w.now row }) := by
  rw [serve_verifyEmail]
  simp only [htext, UUID.parse_str, huser]

theorem serve_resetPassword_live (env : Env) (p salt : String) (htext : w.text (pwdResetKey x) = some user.id.str)
    (huser : w.userById user.id = some user) :
    serve env w (.resetPassword x p salt) = (.ok .none,
      { w with
        redis := World.revokeAll { w with redis := (w.redis.delete w.now {pwdResetKey x}).2 } user.id
        users := w.users.map fun row =>
          (UserWrite.passwordHash user (env.hash p salt)).applyRow w.now row }) := by
  rw [serve_resetPassword]
  simp only [htext, UUID.parse_str, huser]

theorem serve_requestPasswordReset_known (huser : w.userByEmail env (env.lower email) = some user) :
    serve env w (.requestPasswordReset email x) = (.ok (.resetRequested (some (user, x))),
      { w with
        redis := w.redis.setEx w.now (pwdResetKey x) (.text user.id.str)
          (env.settings.passwordResetTtlMinutes * 60) }) := by
  rw [serve_requestPasswordReset]
  simp only [huser]

/-- An account stays one under a write to its row. -/
theorem IsAccount.applyRow (h : IsAccount env w email row) (now : Nat) (x : UserWrite) :
    IsAccount env { w with users := w.users.map fun row => x.applyRow now row } email
      (x.applyRow now row) := by
  obtain ⟨hmem, hemail, hdel, hactive⟩ := h
  obtain ⟨-, hemail', hactive', hdel'⟩ := applyRow_keeps now row x
  exact ⟨List.mem_map_of_mem hmem, hemail'.trans hemail, hdel'.trans hdel, hactive'.trans hactive⟩

theorem emailVerified_applyRow (now : Nat) (row : User) :
    ((UserWrite.emailVerified row).applyRow now row).isEmailVerified = true ∧
      ((UserWrite.emailVerified row).applyRow now row).passwordHash = row.passwordHash := by
  cases hv : row.isEmailVerified <;> simp [UserWrite.applyRow, hv]

theorem passwordHash_applyRow (now : Nat) (row : User) (hash : String) :
    ((UserWrite.passwordHash row hash).applyRow now row).passwordHash = hash ∧
      ((UserWrite.passwordHash row hash).applyRow now row).isEmailVerified = row.isEmailVerified := by
  by_cases hh : row.passwordHash = hash <;> simp [UserWrite.applyRow, hh]

end Requests

section Continuations
variable {env : Env} {t : Trace} {email p : String}

theorem world_request {r : Request} {o : Except Exc Reply} {w' : World}
    (h : serve env t.world r = (o, w')) : (t.step env (.request r)).world = w' := by
  simp only [Trace.step, h]

/-- Once the account can be entered, waiting is all that is left. -/
theorem Enterable.after_wait {row : User} (h : Enterable env t.world email p row)
    (horderly : Orderly env t.world) (hlower : ∀ s, env.lower (env.lower s) = env.lower s)
    (d : IssueDraws) :
    ∃ a T, (serve env (t.step env (.wait env.settings.lockoutSeconds)).world (.login email p d)).1 =
      .ok (.tokenPair a T) :=
  Enterable.login (w := (t.step env (.wait env.settings.lockoutSeconds)).world) ⟨h.1, h.2, h.3⟩
    horderly.table hlower (horderly.lock_over (env.lower email)) d

/-- An address without an account is registered and verified. -/
theorem recovers_joining (horderly : Orderly env t.world)
    (hlower : ∀ s, env.lower (env.lower s) = env.lower s)
    (hverify : ∀ q salt, env.verify q (env.hash q salt) = true)
    (hnone : t.world.userByEmail env (env.lower email) = none) (hemail : fits 320 (env.lower email) = true)
    {fullName : String} (hname : fits 255 fullName = true) {d : RegisterDraws}
    (hid : ∀ row ∈ t.world.users, row.id ≠ d.userId) :
    Recovers env t email p [] (joining env email p fullName d) := by
  have hregister := serve_register_new (p := p) hnone hlower hemail hname hid
  set row := t.world.newUser d.userId (env.lower email) (env.hash p d.salt) fullName with hrow
  have hworld := world_request hregister
  have horderly' := horderly.step (.request (.register email p fullName d))
  set t' := t.step env (.request (.register email p fullName d)) with ht'
  have hmem : row ∈ t'.world.users := by simp [hworld]
  have htext : t'.world.text (emailVerifyKey d.token) = some row.id.str := by
    rw [hworld]
    exact text_setEx (linkSeconds_pos env true) rfl
  have hverified := serve_verifyEmail_live env htext (userById_eq_some horderly'.table hmem rfl)
  have hworld' := world_request hverified
  have haccount : IsAccount env t'.world email row := ⟨hmem, rfl, rfl, rfl⟩
  obtain ⟨hflag, hhash⟩ := emailVerified_applyRow t'.world.now row
  refine ⟨⟨?_, ?_, trivial⟩, fun d' => ?_⟩
  · simp [Request.tokens]
  · simp [Request.tokens, hregister, Entry.learn, Entry.mail, hrow, World.newUser]
  · rw [joining, Trace.after_cons, Trace.after_cons, Trace.after_cons, Trace.after_nil, ← ht']
    have henter : Enterable env (t'.step env (.request (.verifyEmail d.token))).world email p
        ((UserWrite.emailVerified row).applyRow t'.world.now row) := by
      rw [hworld']
      refine ⟨haccount.applyRow _ _, hflag, ?_⟩
      rw [hhash]
      exact hverify p d.salt
    exact henter.after_wait (horderly'.step _) hlower d'

/-- A verified account is entered with a new password. -/
theorem recovers_resetting (horderly : Orderly env t.world)
    (hlower : ∀ s, env.lower (env.lower s) = env.lower s)
    (hverify : ∀ q salt, env.verify q (env.hash q salt) = true) {row : User}
    (haccount : IsAccount env t.world email row) (hver : row.isEmailVerified = true)
    (known : List String) (x salt : String) :
    Recovers env t email p known (resetting env email p x salt) := by
  obtain ⟨hmem, hemail, hdel, hactive⟩ := haccount
  have hrequest := serve_requestPasswordReset_known (x := x)
    ((userByEmail_eq_some_iff horderly.table hlower).mpr ⟨hmem, hemail, hdel⟩)
  have hworld := world_request hrequest
  have horderly' := horderly.step (.request (.requestPasswordReset email x))
  set t' := t.step env (.request (.requestPasswordReset email x)) with ht'
  have haccount : IsAccount env t'.world email row := by
    rw [hworld]
    exact ⟨hmem, hemail, hdel, hactive⟩
  have htext : t'.world.text (pwdResetKey x) = some row.id.str := by
    rw [hworld]
    exact text_setEx (linkSeconds_pos env false) rfl
  have hreset := serve_resetPassword_live env p salt htext
    (userById_eq_some horderly'.table haccount.1 hdel)
  have hworld' := world_request hreset
  obtain ⟨hhash, hflag⟩ := passwordHash_applyRow t'.world.now row (env.hash p salt)
  refine ⟨⟨?_, ?_, trivial⟩, fun d' => ?_⟩
  · simp [Request.tokens]
  · simp [Request.tokens, hrequest, Entry.learn, Entry.mail, hemail]
  · rw [resetting, Trace.after_cons, Trace.after_cons, Trace.after_cons, Trace.after_nil, ← ht']
    have henter : Enterable env (t'.step env (.request (.resetPassword x p salt))).world email p
        ((UserWrite.passwordHash row (env.hash p salt)).applyRow t'.world.now row) := by
      rw [hworld']
      refine ⟨haccount.applyRow _ _, hflag.trans hver, ?_⟩
      rw [hhash]
      exact hverify p salt
    exact henter.after_wait (horderly'.step _) hlower d'

/-- An account whose verification link is live is verified first. -/
theorem recovers_verifying (horderly : Orderly env t.world)
    (hlower : ∀ s, env.lower (env.lower s) = env.lower s)
    (hverify : ∀ q salt, env.verify q (env.hash q salt) = true) {row : User}
    (haccount : IsAccount env t.world email row) {y : String}
    (htext : t.world.text (emailVerifyKey y) = some row.id.str) (x salt : String) :
    Recovers env t email p [y] (.request (.verifyEmail y) :: resetting env email p x salt) := by
  have hverified := serve_verifyEmail_live env htext
    (userById_eq_some horderly.table haccount.1 haccount.2.2.1)
  have hworld := world_request hverified
  have haccount' : IsAccount env (t.step env (.request (.verifyEmail y))).world email
      ((UserWrite.emailVerified row).applyRow t.world.now row) := by
    rw [hworld]
    exact haccount.applyRow _ _
  have hrest := recovers_resetting (p := p) (horderly.step (.request (.verifyEmail y))) hlower hverify
    haccount' (emailVerified_applyRow t.world.now row).1 [y] x salt
  refine ⟨⟨?_, ?_⟩, fun d => ?_⟩
  · simp [Request.tokens]
  · have hlearn : (⟨t.world, .verifyEmail y, (serve env t.world (.verifyEmail y)).1⟩ : Entry).learn
        (env.lower email) [y] = [y] := by
      simp [hverified, Entry.learn, Entry.mail]
    rw [hlearn]
    exact hrest.1
  · rw [Trace.after_cons]
    exact hrest.2 d

end Continuations

/-! ## Stranded accounts -/

/-- The address belongs to an unverified account, and no verification link for it is left. -/
structure Stranded (env : Env) (w : World) (email : String) (id : UUID) : Prop where
  account : ∃ row ∈ w.users, row.id = id ∧ row.email = env.lower email ∧ row.deletedAt = none ∧
    row.isEmailVerified = false
  noLink : ∀ y c, w.redis.look w.now (emailVerifyKey y) = some c → c.value.str ≠ id.str

section Stranding
variable {env : Env} {w w' : World} {r : Request} {o : Except Exc Reply} {email : String} {id : UUID}

/-- Changes of rows that verify none and delete none leave the account stranded. -/
theorem Stranded.users (h : Stranded env w email id) {g : User → User}
    (hg : ∀ row ∈ w.users, row.id = id → row.deletedAt = none → (g row).id = row.id ∧
      (g row).email = row.email ∧ (g row).deletedAt = none ∧
      (g row).isEmailVerified = row.isEmailVerified) :
    ∃ row ∈ w.users.map g, row.id = id ∧ row.email = env.lower email ∧ row.deletedAt = none ∧
      row.isEmailVerified = false := by
  obtain ⟨row, hmem, hid, hemail, hdel, hver⟩ := h.account
  obtain ⟨hid', hemail', hdel', hver'⟩ := hg row hmem hid hdel
  exact ⟨g row, List.mem_map_of_mem hmem, hid'.trans hid, hemail'.trans hemail, hdel', hver'.trans hver⟩

/-- No request helps a stranded account. -/
theorem Stranded.effect (h : Stranded env w email id) (he : Effect env w r o w') :
    Stranded env w' email id where
  account := by
    cases he with
    | registered =>
      obtain ⟨row, hmem, hrest⟩ := h.account
      exact ⟨row, List.mem_append_left _ hmem, hrest⟩
    | verified y userId user htext huser =>
      refine h.users fun row hmem hid hdel => ?_
      obtain ⟨hid', hemail', -, hdel'⟩ := applyRow_keeps w.now row (.emailVerified user)
      refine ⟨hid', hemail', hdel'.trans hdel, ?_⟩
      obtain ⟨c, hc, hcu⟩ := text_eq_some htext
      have hne : row.id ≠ user.id := by
        intro heq
        apply h.noLink y c hc
        rw [hcu, ← World.id_of_userById huser, ← heq, hid]
      rw [UserWrite.applyRow, if_neg fun hand => hne hand.1]
    | reset y newPassword salt userId user htext huser =>
      refine h.users fun row hmem hid hdel => ?_
      obtain ⟨hid', hemail', -, hdel'⟩ :=
        applyRow_keeps w.now row (.passwordHash user (env.hash newPassword salt))
      refine ⟨hid', hemail', hdel'.trans hdel, ?_⟩
      simp only [UserWrite.applyRow]
      split <;> rfl
    | _ => exact h.account
  noLink y c hc := by
    rw [he.now] at hc
    rcases he.look_before hc with hc | hwrote
    · exact h.noLink y c hc
    · generalize hk : emailVerifyKey y = k at hwrote
      cases hwrote with
      | @verification email' password fullName d user =>
        obtain ⟨row, hmem, rfl, -⟩ := h.account
        cases he with
        | registered _ _ _ _ _ haccepts =>
          intro heq
          exact (accepts_spec haccepts hmem).1 (UUID.str_inj.mp heq).symm
      | _ => simp at hk

theorem Stranded.step {t : Trace} (h : Stranded env t.world email id) {a : Action}
    (ha : a ≠ .softDelete id) : Stranded env (t.step env a).world email id := by
  cases a with
  | wait n =>
    exact ⟨h.account, fun y c hc => h.noLink y c (Store.look_of_later (Nat.le_add_right _ n) hc)⟩
  | request r => exact h.effect (serve_effect env t.world r)
  | setActive id' isActive =>
    refine ⟨h.users fun row hmem hid hdel => ?_, h.noLink⟩
    split <;> exact ⟨rfl, rfl, hdel, rfl⟩
  | softDelete id' =>
    refine ⟨h.users fun row hmem hid hdel => ?_, h.noLink⟩
    have hne : ¬ (row.id = id' ∧ row.deletedAt = none) := by
      rintro ⟨rfl, -⟩
      exact ha (by rw [hid])
    rw [if_neg hne]
    exact ⟨rfl, rfl, hdel, rfl⟩

theorem Stranded.after {t : Trace} (h : Stranded env t.world email id) {actions : List Action}
    (ha : ∀ a ∈ actions, a ≠ .softDelete id) : Stranded env (t.after env actions).world email id := by
  induction actions generalizing t with
  | nil => exact h
  | cons a as ih =>
    exact ih (h.step (ha a List.mem_cons_self)) fun b hb => ha b (List.mem_cons_of_mem _ hb)

/-- Nobody logs in to a stranded account. -/
theorem Stranded.no_login (h : Stranded env w email id) (htable : TableOk w.users)
    (hlower : ∀ s, env.lower (env.lower s) = env.lower s) {p a T : String} {d : IssueDraws} :
    (serve env w (.login email p d)).1 ≠ .ok (.tokenPair a T) := by
  intro ho
  have he := serve_effect env w (.login email p d)
  rw [ho] at he
  generalize hw : (serve env w (.login email p d)).2 = w' at he
  generalize hout : (Except.ok (Reply.tokenPair a T) : Except Exc Reply) = o at he
  cases he with
  | loggedIn _ _ _ user hlock huser hverified =>
    obtain ⟨row, hmem, -, hemail, hdel, hver⟩ := h.account
    have hfound := (Option.filter_eq_some_iff.mp huser).1
    obtain rfl := Option.some.inj (hfound.symm.trans
      ((userByEmail_eq_some_iff htable hlower).mpr ⟨hmem, hemail, hdel⟩))
    rw [hver] at hverified
    cases hverified
  | _ => cases hout

end Stranding

/-! ## The verification mail -/

/-- A live verification link was mailed to the address of its account. -/
def LinksMailed (t : Trace) : Prop :=
  ∀ y c, t.world.redis.look t.world.now (emailVerifyKey y) = some c →
    ∃ e ∈ t.log, ∃ user : User, e.outcome = .ok (.registered user y) ∧ c.value = .text user.id.str ∧
      ∃ row ∈ t.world.users, row.id = user.id ∧ row.email = user.email

section Mailing
variable {env : Env} {t : Trace}

/-- Rows that keep their id and their address keep the mail of their account. -/
theorem LinksMailed.users (h : LinksMailed t) {g : User → User}
    (hg : ∀ row, (g row).id = row.id ∧ (g row).email = row.email) :
    LinksMailed { t with world := { t.world with users := t.world.users.map g } } := by
  intro y c hc
  obtain ⟨e, he, user, ho, hv, row, hrow, hid, hemail⟩ := h y c hc
  exact ⟨e, he, user, ho, hv, g row, List.mem_map_of_mem hrow, (hg row).1.trans hid,
    (hg row).2.trans hemail⟩

theorem LinksMailed.request (h : LinksMailed t) (r : Request) :
    LinksMailed (t.step env (.request r)) := by
  have he := serve_effect env t.world r
  have hkeep : ∀ row ∈ t.world.users, ∃ row' ∈ (serve env t.world r).2.users,
      row'.id = row.id ∧ row'.email = row.email := by
    intro row hrow
    rcases he.users_after with ⟨new, -, husers⟩ | ⟨g, hg, husers⟩
    · rw [husers]
      exact ⟨row, List.mem_append_left _ hrow, rfl, rfl⟩
    · rw [husers]
      exact ⟨g row, List.mem_map_of_mem hrow, (hg row).1, (hg row).2.1⟩
  intro y c hc
  have hnow : (serve env t.world r).2.now = t.world.now := he.now
  simp only [Trace.step, hnow] at hc
  rcases he.look_before hc with hc | hwrote
  · obtain ⟨e, hmem, user, ho, hv, row, hrow, hid, hemail⟩ := h y c hc
    obtain ⟨row', hrow', hid', hemail'⟩ := hkeep row hrow
    exact ⟨e, List.mem_cons_of_mem _ hmem, user, ho, hv, row', hrow', hid'.trans hid,
      hemail'.trans hemail⟩
  · generalize hk : emailVerifyKey y = k at hwrote
    generalize ho : (serve env t.world r).1 = o at hwrote
    cases hwrote with
    | @verification email password fullName d user =>
      obtain rfl := (emailVerifyKey_inj _ _).mp hk
      refine ⟨_, List.mem_cons_self, user, ho, rfl, user, ?_, rfl, rfl⟩
      rw [ho] at he
      generalize hw : (serve env t.world (.register email password fullName d)).2 = w' at he
      simp only [Trace.step, hw]
      cases he
      simp
    | _ => simp at hk

theorem LinksMailed.step (h : LinksMailed t) (a : Action) : LinksMailed (t.step env a) := by
  cases a with
  | wait n => exact fun y c hc => h y c (Store.look_of_later (Nat.le_add_right _ n) hc)
  | request r => exact h.request r
  | setActive id isActive =>
    refine h.users fun row => ?_
    split <;> exact ⟨rfl, rfl⟩
  | softDelete id =>
    refine h.users fun row => ?_
    split <;> exact ⟨rfl, rfl⟩

theorem linksMailed_after (env : Env) (now : Nat) (users : List User) (actions : List Action) :
    LinksMailed ((Trace.start now users).after env actions) := by
  have hstart : LinksMailed (Trace.start now users) := by
    intro y c hc
    simp [Trace.start] at hc
  generalize Trace.start now users = t at hstart
  induction actions generalizing t with
  | nil => exact hstart
  | cons a as ih => exact ih _ (hstart.step a)

end Mailing

/-! ## Every mailbox but one gets in -/

/-- From every reachable state in which the address has no deactivated account: without
an account, the holder of the mailbox registers, verifies and logs in; a verified account
is entered through a reset; an unverified one whose verification link is live, through
that link, which was mailed to the address, and a reset. If the link is gone, nothing
that anybody requests ends in a login, as long as the account is not deleted. -/
theorem mailbox_recovers (env : Env) (hlower : ∀ s, env.lower (env.lower s) = env.lower s)
    (hverify : ∀ p salt, env.verify p (env.hash p salt) = true) (now : Nat) {users : List User}
    (husers : TableOk users) (actions : List Action) (email p fullName x salt : String)
    (hemail : fits 320 (env.lower email) = true) (hname : fits 255 fullName = true)
    (d : RegisterDraws) :
    let t := (Trace.start now users).after env actions
    (∀ row ∈ t.world.users, row.id ≠ d.userId) →
    (∀ row ∈ t.world.users, row.email = env.lower email → row.deletedAt = none →
      row.isActive = true) →
    ((∀ row ∈ t.world.users, row.email = env.lower email → row.deletedAt ≠ none) →
      Recovers env t email p [] (joining env email p fullName d)) ∧
    ∀ row ∈ t.world.users, row.email = env.lower email → row.deletedAt = none →
      (row.isEmailVerified = true → Recovers env t email p [] (resetting env email p x salt)) ∧
      (row.isEmailVerified = false → ∀ y, t.world.text (emailVerifyKey y) = some row.id.str →
        (∃ e ∈ t.log, e.mail = some (env.lower email, y)) ∧
        Recovers env t email p [y] (.request (.verifyEmail y) :: resetting env email p x salt)) ∧
      (row.isEmailVerified = false → (∀ y, t.world.text (emailVerifyKey y) ≠ some row.id.str) →
        ∀ more : List Action, (∀ a ∈ more, a ≠ .softDelete row.id) → ∀ q d' a T,
          (serve env (t.after env more).world (.login email q d')).1 ≠ .ok (.tokenPair a T)) := by
  intro t hid hactive
  have horderly : Orderly env t.world := (Orderly.start env now husers).after actions
  refine ⟨?_, ?_⟩
  · intro hnone
    refine recovers_joining horderly hlower hverify ?_ hemail hname hid
    rw [Option.eq_none_iff_forall_ne_some]
    intro row hrow
    obtain ⟨hmem, hrow', hdel⟩ := (userByEmail_eq_some_iff horderly.table hlower).mp hrow
    exact hnone row hmem hrow' hdel
  · intro row hmem hrow hdel
    have haccount : IsAccount env t.world email row := ⟨hmem, hrow, hdel, hactive row hmem hrow hdel⟩
    refine ⟨?_, ?_, ?_⟩
    · intro hver
      exact recovers_resetting horderly hlower hverify haccount hver [] x salt
    · intro hver y htext
      refine ⟨?_, recovers_verifying horderly hlower hverify haccount htext x salt⟩
      obtain ⟨c, hc, hcu⟩ := text_eq_some htext
      obtain ⟨e, he, user, ho, hv, other, hother, hid', hemail'⟩ :=
        linksMailed_after env now users actions y c hc
      rw [hv] at hcu
      have hsame : other = row :=
        horderly.table.ids.eq_of_key hother hmem (hid'.trans (UUID.str_inj.mp hcu))
      subst hsame
      refine ⟨e, he, ?_⟩
      simp only [Entry.mail, ho, ← hemail', hrow]
    · intro hver hgone more hmore q d' a T
      have hstranded : Stranded env t.world email row.id := by
        refine ⟨⟨row, hmem, rfl, hrow, hdel, hver⟩, ?_⟩
        intro y c hc heq
        apply hgone y
        obtain ⟨v, deadline⟩ := c
        rw [World.text, Store.get, hc, Option.map_some, Option.map_some, ← heq]
      exact (hstranded.after hmore).no_login (horderly.after more).table hlower

/-! ### Ada, who has not verified her address -/

def adaRegisters : Request :=
  .register "Ada@example.com" "correct horse" "Ada" ⟨plainUuid .zero .zero, "s0", "v1"⟩

/-- The row of Ada before she has verified her address. -/
def adaUnverified : User :=
  { ada with
    passwordHash := saltedEnv.hash "correct horse" "s0"
    isEmailVerified := false
    createdAt := 1000
    updatedAt := 1000 }

/-- While her link is live, it is a way in. -/
theorem mailbox_recovers_verifying :
    let t := (Trace.start 1000 []).after saltedEnv [.request adaRegisters, .wait 60]
    Recovers saltedEnv t "ada@example.com" "hunter two" ["v1"]
      (.request (.verifyEmail "v1") :: resetting saltedEnv "ada@example.com" "hunter two" "x1" "s1") := by
  intro t
  have hrecovers := mailbox_recovers saltedEnv saltedEnv_lower
    (fun p salt => (saltedEnv_verify p p salt).mpr rfl) 1000 tableOk_nil
    [.request adaRegisters, .wait 60] "ada@example.com" "hunter two" "Ada" "x1" "s1" (by decide +kernel)
    (by decide +kernel) ⟨plainUuid .one .one, "s2", "v2"⟩ (by decide +kernel) (by decide +kernel)
  exact ((hrecovers.2 adaUnverified (by decide +kernel) (by decide +kernel) rfl).2.1 rfl "v1"
    (by decide +kernel)).2

theorem ByHolder.no_softDelete {env : Env} {address : String} {known : List String} {t : Trace}
    {actions : List Action} (h : ByHolder env address known t actions) (id : UUID) :
    ∀ a ∈ actions, a ≠ .softDelete id := by
  induction actions generalizing known t with
  | nil =>
    intro a ha
    cases ha
  | cons b bs ih =>
    intro a ha
    cases b with
    | wait n =>
      rcases List.mem_cons.mp ha with rfl | ha
      · exact fun hc => by cases hc
      · exact ih h a ha
    | request r =>
      rcases List.mem_cons.mp ha with rfl | ha
      · exact fun hc => by cases hc
      · exact ih h.2 a ha
    | setActive _ _ => exact h.elim
    | softDelete _ => exact h.elim

/-- Ada has registered and let her verification link expire: her account is active, and
no continuation by the holder of the mailbox ends in a login. -/
theorem expired_link_strands :
    let t := (Trace.start 1000 []).after saltedEnv [.request adaRegisters, .wait 86400]
    IsAccount saltedEnv t.world "ada@example.com" adaUnverified ∧
      ∀ known actions, ByHolder saltedEnv "ada@example.com" known t actions → ∀ p d a T,
        (serve saltedEnv (t.after saltedEnv actions).world (.login "ada@example.com" p d)).1 ≠
          .ok (.tokenPair a T) := by
  intro t
  have haccount : IsAccount saltedEnv t.world "ada@example.com" adaUnverified :=
    ⟨by decide +kernel, by decide +kernel, rfl, rfl⟩
  refine ⟨haccount, ?_⟩
  intro known actions hholder p d a T
  have horderly : Orderly saltedEnv t.world :=
    (Orderly.start saltedEnv 1000 tableOk_nil).after [.request adaRegisters, .wait 86400]
  have hstranded : Stranded saltedEnv t.world "ada@example.com" adaUnverified.id := by
    refine ⟨⟨adaUnverified, haccount.1, rfl, haccount.2.1, rfl, rfl⟩, ?_⟩
    intro y c hc
    have hregister : serve saltedEnv (Trace.start 1000 []).world adaRegisters = _ :=
      serve_register_new rfl saltedEnv_lower (by decide +kernel) (by decide +kernel)
        fun row hrow => by cases hrow
    change (serve saltedEnv (Trace.start 1000 []).world adaRegisters).2.redis.look
      ((serve saltedEnv (Trace.start 1000 []).world adaRegisters).2.now + 86400) _ = _ at hc
    rw [hregister] at hc
    simp [Trace.start, saltedEnv, plainEnv, Settings.default] at hc
  exact (hstranded.after (hholder.no_softDelete _)).no_login (horderly.after actions).table
    saltedEnv_lower

end TaskMgtApp.Auth
