import TaskMgtApp.Auth.Http
import TaskMgtApp.Auth.OneTimeLinks

/-!
# The mail that carries a link goes to the account the link acts on

One-time tokens leave the app by mail only: `app/notifications/service.py` makes them into a
message, and the routes send it in the background once the response is out. A link is
redeemed for an id, a mail is sent to an email, and nothing ties the two together but that
an account keeps its email for good.
-/
namespace TaskMgtApp.Auth

open TaskMgtApp.Common

/-- What `EmailSender.send` is called with. -/
structure Mail where
  toEmail : String
  subject : String
  body : String
  deriving DecidableEq

/-! ## `NotificationService` -/

section Notifications
variable (env : Env) (frontendUrl : String)

def sendVerificationEmail (toEmail token : String) : Mail :=
  let link := frontendUrl ++ "/verify-email?token=" ++ token
  { toEmail := toEmail
    subject := "Verify your email"
    body := "Welcome to Task Manager!\n\n" ++
      ("Please verify your email address by visiting:\n" ++ link ++ "\n\n") ++
      ("This link expires in " ++ toString env.settings.emailVerificationTtlHours ++ " hours.") }

def sendPasswordResetEmail (toEmail token : String) : Mail :=
  let link := frontendUrl ++ "/reset-password?token=" ++ token
  { toEmail := toEmail
    subject := "Reset your password"
    body := "A password reset was requested for your account.\n\n" ++
      ("Reset it by visiting:\n" ++ link ++ "\n\n") ++
      ("This link expires in " ++ toString env.settings.passwordResetTtlMinutes ++ " minutes. ") ++
      "If you didn't request this, you can safely ignore this email." }

/-- What the route of a request has added to its `BackgroundTasks`. They run once the
response has been sent, and a request that fails does not get that far. -/
def Entry.backgroundTasks (e : Entry) : List Mail :=
  match e.outcome with
  | .ok (.registered user token) => [sendVerificationEmail env frontendUrl user.email token]
  | .ok (.resetRequested (some (user, token))) =>
      [sendPasswordResetEmail env frontendUrl user.email token]
  | _ => []

/-- The mails of all requests served so far. -/
def Trace.mails (t : Trace) : List Mail := t.log.flatMap (Entry.backgroundTasks env frontendUrl)

/-- The mail for a verification link or for a reset link. -/
def linkMail (verification : Bool) (toEmail token : String) : Mail :=
  if verification then sendVerificationEmail env frontendUrl toEmail token
  else sendPasswordResetEmail env frontendUrl toEmail token

end Notifications

section Mails
variable {env : Env} {frontendUrl : String} {e : Entry} {m : Mail} {b b' : Bool} {x y : String}

@[simp] theorem linkMail_toEmail (b : Bool) (toEmail x : String) :
    (linkMail env frontendUrl b toEmail x).toEmail = toEmail := by
  cases b <;> rfl

/-- The text of a mail says which link it carries. -/
theorem linkMail_body_inj {a c : String}
    (h : (linkMail env frontendUrl b a x).body = (linkMail env frontendUrl b' c y).body) :
    b = b' ∧ x = y := by
  have hkinds : ∀ {a c x y : String}, (sendVerificationEmail env frontendUrl a x).body ≠
      (sendPasswordResetEmail env frontendUrl c y).body := by
    intro a c x y
    simp only [sendVerificationEmail, sendPasswordResetEmail, String.append_assoc]
    exact append_ne 1 (by decide) (by decide) (by decide) _ _
  cases b <;> cases b'
  · refine ⟨rfl, ?_⟩
    simpa [linkMail, sendPasswordResetEmail, String.append_left_inj, String.append_right_inj] using h
  · exact absurd h.symm hkinds
  · exact absurd h hkinds
  · refine ⟨rfl, ?_⟩
    simpa [linkMail, sendVerificationEmail, String.append_left_inj, String.append_right_inj] using h

/-- A mail is sent by a request that returned a one-time token, to the account it was for. -/
theorem mem_backgroundTasks : m ∈ e.backgroundTasks env frontendUrl ↔
    ∃ b x, ∃ user : User, e.outcome =
        .ok (if b then .registered user x else .resetRequested (some (user, x))) ∧
      m = linkMail env frontendUrl b user.email x := by
  constructor
  · intro h
    unfold Entry.backgroundTasks at h
    split at h
    · rename_i user x ho
      exact ⟨true, x, user, ho, List.mem_singleton.mp h⟩
    · rename_i user x ho
      exact ⟨false, x, user, ho, List.mem_singleton.mp h⟩
    · cases h
  · intro h
    obtain ⟨b, x, user, ho, rfl⟩ := h
    cases b
    · simp [Entry.backgroundTasks, ho, linkMail]
    · simp [Entry.backgroundTasks, ho, linkMail]

end Mails

/-! ## An account keeps its email -/

/-- Every one-time token of the log was returned with the email its account still has. -/
def Addressed (t : Trace) : Prop :=
  ∀ e ∈ t.log, ∀ (b : Bool) (x : String) (user : User),
    e.outcome = .ok (if b then .registered user x else .resetRequested (some (user, x))) →
      LivesOn t.world.users user

section Addresses
variable {env : Env} {t : Trace} {w w' : World} {r : Request} {o : Except Exc Reply}

/-- The account that is returned with a one-time token is one of the table. -/
theorem Effect.gives_row (h : Effect env w r o w') {b : Bool} {x : String} {user : User}
    (ho : o = .ok (if b then .registered user x else .resetRequested (some (user, x)))) :
    user ∈ w'.users := by
  cases b with
  | true =>
    cases h <;> cases ho
    exact List.mem_append_right _ (List.mem_singleton_self _)
  | false =>
    cases h with
    | resetRequested email token row huser =>
      cases ho
      exact List.mem_of_find?_eq_some huser
    | _ => cases ho

theorem Addressed.step (h : Addressed t) (a : Action) : Addressed (t.step env a) := by
  have hold : ∀ e ∈ t.log, ∀ (b : Bool) (x : String) (user : User),
      e.outcome = .ok (if b then .registered user x else .resetRequested (some (user, x))) →
      LivesOn (t.step env a).world.users user :=
    fun e he b x user ho => (h e he b x user ho).step a
  cases a with
  | wait n => exact hold
  | setActive id isActive => exact hold
  | softDelete id => exact hold
  | request r =>
    intro e he b x user ho
    rcases List.mem_cons.mp he with rfl | he
    · exact ⟨user, (serve_effect env t.world r).gives_row ho, rfl, rfl⟩
    · exact hold e he b x user ho

end Addresses

/-! ## What following a link does -/

section Follow
variable {env : Env} {t : Trace} {r : Request} {b : Bool} {x : String}

theorem World.live_of_userById {w : World} {id : UUID} {user : User}
    (h : w.userById id = some user) : user.deletedAt = none := by
  have hlive := List.find?_some h
  simp only [Bool.and_eq_true, Option.isNone_iff_eq_none] at hlive
  exact hlive.1

/-- A link that works was issued for an account that is there, and acts on that account. -/
theorem Ledger.uses_acts (h : Ledger env t) (honce : OneTimeTokens t.log)
    (hu : (⟨t.world, r, (serve env t.world r).1⟩ : Entry).uses b x) :
    ∃ row ∈ t.world.users, row.deletedAt = none ∧ OneTime t.log b x row.id ∧
      ActsOn env row.id t.world (serve env t.world r).2 := by
  obtain ⟨ho, hr⟩ := hu
  have he := serve_effect env t.world r
  generalize (serve env t.world r).1 = o at he ho
  generalize (serve env t.world r).2 = w' at he ⊢
  obtain rfl : o = _ := ho
  cases b with
  | true =>
    obtain rfl : r = _ := hr
    obtain ⟨⟨_, hfail⟩, -⟩ | ⟨u, hissued, hacts⟩ := h.verify_acts he
    · cases hfail
    cases he with
    | verified _ userId user htext huser =>
      obtain rfl := World.id_of_userById huser
      obtain ⟨-, -, -, hissued'⟩ := h.verifyCell htext
      obtain rfl : user.id = u := (honce.unique true true x _ _ hissued' hissued).2
      exact ⟨user, World.userById_mem huser, World.live_of_userById huser, hissued, hacts⟩
  | false =>
    obtain ⟨newPassword, salt, rfl⟩ : ∃ newPassword salt, r = .resetPassword x newPassword salt := hr
    obtain ⟨⟨_, hfail⟩, -⟩ | ⟨u, hissued, hacts⟩ := h.reset_acts he
    · cases hfail
    cases he with
    | reset _ _ _ userId user htext huser =>
      obtain rfl := World.id_of_userById huser
      obtain ⟨-, -, -, hissued'⟩ := h.resetCell htext
      obtain rfl : user.id = u := (honce.unique false false x _ _ hissued' hissued).2
      exact ⟨user, World.userById_mem huser, World.live_of_userById huser, hissued, hacts⟩

/-- A mail with a link goes to the account the link was issued for. -/
theorem Addressed.sent_to (h : Addressed t) (hledger : Ledger env t) (honce : OneTimeTokens t.log)
    {frontendUrl a : String} {m : Mail} {row : User} (hrow : row ∈ t.world.users)
    (hissued : OneTime t.log b x row.id) (hm : m ∈ t.mails env frontendUrl)
    (hbody : m.body = (linkMail env frontendUrl b a x).body) : m.toEmail = row.email := by
  obtain ⟨e, he, hm⟩ := List.mem_flatMap.mp hm
  obtain ⟨b', x', user, ho, rfl⟩ := mem_backgroundTasks.mp hm
  obtain ⟨rfl, rfl⟩ := linkMail_body_inj hbody
  obtain ⟨row', hrow', hid, hemail⟩ := h e he b' x' user ho
  have hfor : OneTime t.log b' x' user.id := by
    cases b'
    · exact ⟨e, he, user, ho, rfl⟩
    · exact ⟨e, he, user, ho, rfl⟩
  have hsame : user.id = row.id := (honce.unique b' b' x' _ _ hfor hissued).2
  obtain rfl := hledger.table.ids.eq_of_key hrow' hrow (hid.trans hsame)
  rw [linkMail_toEmail, hemail]

/-- Whoever was issued a link was sent it. -/
theorem Addressed.sent (h : Addressed t) (hledger : Ledger env t) (frontendUrl : String) {row : User}
    (hrow : row ∈ t.world.users) (hissued : OneTime t.log b x row.id) :
    linkMail env frontendUrl b row.email x ∈ t.mails env frontendUrl := by
  obtain ⟨e, he, user, ho, hid⟩ : ∃ e ∈ t.log, ∃ user : User, e.outcome =
      .ok (if b then .registered user x else .resetRequested (some (user, x))) ∧ user.id = row.id := by
    cases b
    · exact hissued
    · exact hissued
  obtain ⟨row', hrow', hid', hemail⟩ := h e he b x user ho
  obtain rfl := hledger.table.ids.eq_of_key hrow' hrow (hid'.trans hid)
  rw [hemail]
  exact List.mem_flatMap.mpr ⟨e, he, mem_backgroundTasks.mpr ⟨b, x, user, ho, rfl⟩⟩

end Follow

/-- In every run, a verification or reset link that works acts on one account, which is not
deleted; the link was mailed to the email of that account, and every mail that carries it
went there. -/
theorem links_reach_their_owner (env : Env) (frontendUrl : String) (now : Nat) {users : List User}
    (husers : TableOk users) (actions : List Action)
    (hfresh : Fresh (actions.flatMap Action.requests)) :
    let t := (Trace.start now users).after env actions
    ∀ r b x, (⟨t.world, r, (serve env t.world r).1⟩ : Entry).uses b x →
      ∃ row ∈ t.world.users, row.deletedAt = none ∧
        ActsOn env row.id t.world (serve env t.world r).2 ∧
        linkMail env frontendUrl b row.email x ∈ t.mails env frontendUrl ∧
        ∀ m ∈ t.mails env frontendUrl, m.body = (linkMail env frontendUrl b row.email x).body →
          m.toEmail = row.email := by
  intro t r b x hu
  have hledger : Ledger env t := ledger_after env now husers actions hfresh
  have honce : OneTimeTokens t.log := oneTimeTokens_after env now users actions hfresh
  have haddressed : Addressed t :=
    ledger_induction husers hfresh (fun e he => (by cases he)) fun t a _ _ h _ => h.step a
  obtain ⟨row, hrow, hlive, hissued, hacts⟩ := hledger.uses_acts honce hu
  exact ⟨row, hrow, hlive, hacts, haddressed.sent hledger frontendUrl hrow hissued,
    fun m hm hbody => haddressed.sent_to hledger honce hrow hissued hm hbody⟩

/-- The reset link of Ada was mailed to her. -/
theorem links_reach_their_owner_reset :
    let t := (Trace.start 1000 []).after plainEnv adaJoins
    let r := Request.resetPassword "x1" "battery staple" "s1"
    ∃ row ∈ t.world.users, row.deletedAt = none ∧
      ActsOn plainEnv row.id t.world (serve plainEnv t.world r).2 ∧
      linkMail plainEnv "http://localhost:3000" false row.email "x1" ∈
        t.mails plainEnv "http://localhost:3000" ∧
      ∀ m ∈ t.mails plainEnv "http://localhost:3000",
        m.body = (linkMail plainEnv "http://localhost:3000" false row.email "x1").body →
          m.toEmail = row.email :=
  links_reach_their_owner plainEnv "http://localhost:3000" 1000 tableOk_nil adaJoins
    (by decide +kernel) (.resetPassword "x1" "battery staple" "s1") false "x1"
    ⟨by decide +kernel, _, _, rfl⟩

end TaskMgtApp.Auth
