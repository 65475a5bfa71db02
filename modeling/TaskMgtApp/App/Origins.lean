import TaskMgtApp.App.Concurrent
import TaskMgtApp.Auth.Warrants

/-!
# Where rows, links and tokens come from

In a run of the whole application, a row of `users`, a link and a token are each there from
the start, or come from a request that heard what it takes. The refreshes behind a session
lead back to a login that passed its check, and the row which that login read has an origin
too. One command, of any request, leaves nothing behind that has none.
-/
namespace TaskMgtApp.App

open TaskMgtApp.Common
open TaskMgtApp.Lib.ExpiringStore TaskMgtApp.Lib.Warrant
open TaskMgtApp.Auth (User Claims IssueDraws RegisterDraws UserWrite PairIssued Entitled MaySet
  emailVerifyKey pwdResetKey refreshTokenKey loginLockKey loginAttemptsKey credentialsValid
  emailVerifyKey_ne pwdResetKey_ne refreshTokenKey_ne emailVerifyKey_inj pwdResetKey_inj
  refreshTokenKey_inj visibleRows)

/-- What a request has heard of the accounts. -/
abbrev Hearing := Lib.Warrant.Hearing Auth.Cmd.Val Exc

/-- The INSERT of a registration. -/
abbrev addOf (env : Env) (email password fullName : String) (d : RegisterDraws) : Auth.Cmd :=
  .add d.userId (env.auth.lower email) (env.auth.hash password d.salt) fullName

/-- The row it writes. -/
abbrev rowOf (env : Env) (v : Auth.World) (email password fullName : String) (d : RegisterDraws) :
    User :=
  v.newUser d.userId (env.auth.lower email) (env.auth.hash password d.salt) fullName

/-! ## Origins

`w` holds the accounts at the start, and `told i` is what the request `i` has heard so far. -/

section Origins
variable {ι : Type} (env : Env) (w : Auth.World) (jobs : ι → Job) (told : ι → Hearing)

/-- A row as it came into the table: there at the start, or taken from a registration. -/
inductive Born : User → Prop
  | stored {row : User} (h : row ∈ w.users) : Born row
  | registered {i : ι} {email password fullName : String} {d : RegisterDraws} {v : Auth.World}
      (hr : jobs i = .auth (.register email password fullName d))
      (hadd : (told i).Told (addOf env email password fullName d)
        (rowOf env v email password fullName d)) :
      Born (rowOf env v email password fullName d)

/-- The verification link `x` stands for the account `u`. -/
inductive VerifyLink (x : String) : UUID → Prop
  | stored {u : UUID} (h : w.text (emailVerifyKey x) = some u.str) : VerifyLink x u
  | registered {i : ι} {email password fullName : String} {d : RegisterDraws} {v : Auth.World}
      (hr : jobs i = .auth (.register email password fullName d)) (hx : d.token = x)
      (hadd : (told i).Told (addOf env email password fullName d)
        (rowOf env v email password fullName d)) : VerifyLink x d.userId

/-- The reset link `x` stands for the account `u`: somebody named its address. -/
inductive ResetLink (x : String) : UUID → Prop
  | stored {u : UUID} (h : w.text (pwdResetKey x) = some u.str) : ResetLink x u
  | requested {i : ι} {email : String} {user : User}
      (hr : jobs i = .auth (.requestPasswordReset email x))
      (huser : (told i).Told (.getByEmail (env.auth.lower email)) (some user))
      (hemail : user.email = env.auth.lower (env.auth.lower email)) : ResetLink x user.id

/-- The hash `hash` belongs to the account `u`. -/
inductive PasswordFrom : UUID → String → Prop
  | born {row : User} (h : Born env w jobs told row) : PasswordFrom row.id row.passwordHash
  | reset {i : ι} {x newPassword salt : String} {u : UUID}
      (hr : jobs i = .auth (.resetPassword x newPassword salt))
      (hkey : (told i).Told (.get (pwdResetKey x)) (some u.str))
      (hlink : ResetLink env w jobs told x u) : PasswordFrom u (env.auth.hash newPassword salt)

/-- The email of the account `u` has been verified. -/
inductive VerifiedFrom : UUID → Prop
  | born {row : User} (h : Born env w jobs told row) (hv : row.isEmailVerified = true) :
      VerifiedFrom row.id
  | link {i : ι} {x : String} {u : UUID} (hr : jobs i = .auth (.verifyEmail x))
      (hkey : (told i).Told (.get (emailVerifyKey x)) (some u.str))
      (hlink : VerifyLink env w jobs told x u) : VerifiedFrom u

/-- What the row says has an origin: who it is, its password and that its email is verified. -/
structure Vouched (row : User) : Prop where
  born : ∃ row₀, Born env w jobs told row₀ ∧ row.id = row₀.id ∧ row.email = row₀.email
  password : PasswordFrom env w jobs told row.id row.passwordHash
  verified : row.isEmailVerified = true → VerifiedFrom env w jobs told row.id

/-- The request `i` opened a session of `u`: with the password of a verified account, or with
a refresh token that was live at the start or that such a request has issued. -/
inductive Descends : ι → UUID → Prop
  | login {i : ι} {email password : String} {d : IssueDraws} {user : User}
      (hr : jobs i = .auth (.login email password d))
      (huser : (told i).Told (.getByEmail (env.auth.lower email)) (some user))
      (hemail : user.email = env.auth.lower (env.auth.lower email))
      (hrow : Vouched env w jobs told user)
      (hvalid : credentialsValid env.auth password user = true)
      (hverified : user.isEmailVerified = true) : Descends i user.id
  | stored {i : ι} {T : String} {d : IssueDraws} {p : Claims} {u : UUID}
      (hr : jobs i = .auth (.refreshAccessToken T d)) (hp : env.auth.decode T = some p)
      (htype : p.type = .refresh) (hsub : p.sub = u.str)
      (hkey : (told i).Told (.get (refreshTokenKey p.jti)) (some u.str))
      (hlive : w.text (refreshTokenKey p.jti) = some u.str) : Descends i u
  | refreshed {i j : ι} {T : String} {d d' : IssueDraws} {p : Claims} {u : UUID}
      (hr : jobs i = .auth (.refreshAccessToken T d)) (hp : env.auth.decode T = some p)
      (htype : p.type = .refresh) (hsub : p.sub = u.str)
      (hkey : (told i).Told (.get (refreshTokenKey p.jti)) (some u.str))
      (hd : (jobs j).draws = some d') (hj : p.jti = d'.refreshJti.str) (h : Descends j u) :
      Descends i u

/-- The text under a key of the store. -/
inductive Origin : String → String → Prop
  | stored {key v : String} (h : w.text key = some v) : Origin key v
  | attempts {email v : String} : Origin (loginAttemptsKey email) v
  | lock {email v : String} : Origin (loginLockKey email) v
  | verification {x : String} {u : UUID} (h : VerifyLink env w jobs told x u) :
      Origin (emailVerifyKey x) u.str
  | reset {x : String} {u : UUID} (h : ResetLink env w jobs told x u) :
      Origin (pwdResetKey x) u.str
  | token {i : ι} {d : IssueDraws} {u : UUID} (hd : (jobs i).draws = some d)
      (h : Descends env w jobs told i u) : Origin (refreshTokenKey d.refreshJti.str) u.str

/-- A token that was sent to a client. -/
inductive Sent : String → Prop
  | stored {T : String} (h : T ∈ w.issued) : Sent T
  | issued {i : ι} {r : Auth.Request} {u : UUID} {pair : String × String} {T : String}
      (hr : jobs i = .auth r) (hpair : PairIssued env.auth r u pair) (hT : T = pair.1 ∨ T = pair.2)
      (h : Descends env w jobs told i u) : Sent T

/-- A write of a session that is still to be committed. -/
inductive WriteFrom : UserWrite → Prop
  | insert {i : ι} {email password fullName : String} {d : RegisterDraws} {v : Auth.World}
      (hr : jobs i = .auth (.register email password fullName d))
      (hadd : (told i).Told (addOf env email password fullName d)
        (rowOf env v email password fullName d)) :
      WriteFrom (.insert (rowOf env v email password fullName d))
  | emailVerified {user : User} (h : VerifiedFrom env w jobs told user.id) :
      WriteFrom (.emailVerified user)
  | passwordHash {user : User} {hash : String} (h : PasswordFrom env w jobs told user.id hash) :
      WriteFrom (.passwordHash user hash)

end Origins

section Lemmas
variable {ι : Type} {env : Env} {w : Auth.World} {jobs : ι → Job}
  {told told' : ι → Hearing} {x v : String} {u : UUID} {row : User} {i : ι}

/-! ### What has an origin keeps it -/

section Mono
variable (hsub : ∀ i, told i ⊆ told' i)
include hsub

theorem Born.mono (h : Born env w jobs told row) : Born env w jobs told' row := by
  cases h with
  | stored h => exact .stored h
  | registered hr hadd => exact .registered hr (hadd.mono (hsub _))

theorem VerifyLink.mono (h : VerifyLink env w jobs told x u) :
    VerifyLink env w jobs told' x u := by
  cases h with
  | stored h => exact .stored h
  | registered hr hx hadd => exact .registered hr hx (hadd.mono (hsub _))

theorem ResetLink.mono (h : ResetLink env w jobs told x u) :
    ResetLink env w jobs told' x u := by
  cases h with
  | stored h => exact .stored h
  | requested hr huser hemail => exact .requested hr (huser.mono (hsub _)) hemail

theorem PasswordFrom.mono (h : PasswordFrom env w jobs told u v) :
    PasswordFrom env w jobs told' u v := by
  cases h with
  | born h => exact .born (h.mono hsub)
  | reset hr hkey hlink => exact .reset hr (hkey.mono (hsub _)) (hlink.mono hsub)

theorem VerifiedFrom.mono (h : VerifiedFrom env w jobs told u) :
    VerifiedFrom env w jobs told' u := by
  cases h with
  | born h hv => exact .born (h.mono hsub) hv
  | link hr hkey hlink => exact .link hr (hkey.mono (hsub _)) (hlink.mono hsub)

theorem Vouched.mono (h : Vouched env w jobs told row) : Vouched env w jobs told' row where
  born := h.born.imp fun _ h => ⟨h.1.mono hsub, h.2⟩
  password := h.password.mono hsub
  verified hv := (h.verified hv).mono hsub

theorem Descends.mono (h : Descends env w jobs told i u) : Descends env w jobs told' i u := by
  induction h with
  | login hr huser hemail hrow hvalid hverified =>
    exact .login hr (huser.mono (hsub _)) hemail (hrow.mono hsub) hvalid hverified
  | stored hr hp htype hs hkey hlive => exact .stored hr hp htype hs (hkey.mono (hsub _)) hlive
  | refreshed hr hp htype hs hkey hd hj _ ih =>
    exact .refreshed hr hp htype hs (hkey.mono (hsub _)) hd hj ih

theorem Origin.mono {key : String} (h : Origin env w jobs told key v) :
    Origin env w jobs told' key v := by
  cases h with
  | stored h => exact .stored h
  | attempts => exact .attempts
  | lock => exact .lock
  | verification h => exact .verification (h.mono hsub)
  | reset h => exact .reset (h.mono hsub)
  | token hd h => exact .token hd (h.mono hsub)

theorem Sent.mono {T : String} (h : Sent env w jobs told T) : Sent env w jobs told' T := by
  cases h with
  | stored h => exact .stored h
  | issued hr hpair hT h => exact .issued hr hpair hT (h.mono hsub)

theorem WriteFrom.mono {write : UserWrite} (h : WriteFrom env w jobs told write) :
    WriteFrom env w jobs told' write := by
  cases h with
  | insert hr hadd => exact .insert hr (hadd.mono (hsub _))
  | emailVerified h => exact .emailVerified (h.mono hsub)
  | passwordHash h => exact .passwordHash (h.mono hsub)

end Mono

/-! ### The families of keys -/

theorem Origin.verifyLink (h : Origin env w jobs told (emailVerifyKey x) u.str) :
    VerifyLink env w jobs told x u := by
  generalize hk : emailVerifyKey x = key at h
  generalize hv : u.str = v at h
  cases h with
  | stored h => exact .stored (hk ▸ hv ▸ h)
  | attempts => exact absurd hk ((emailVerifyKey_ne x).2.1 _)
  | lock => exact absurd hk ((emailVerifyKey_ne x).1 _)
  | verification h =>
    obtain rfl := (emailVerifyKey_inj ..).mp hk
    obtain rfl := UUID.str_inj.mp hv
    exact h
  | reset h => exact absurd hk ((emailVerifyKey_ne x).2.2.1 _)
  | token hd h => exact absurd hk ((emailVerifyKey_ne x).2.2.2.1 _)

theorem Origin.resetLink (h : Origin env w jobs told (pwdResetKey x) u.str) :
    ResetLink env w jobs told x u := by
  generalize hk : pwdResetKey x = key at h
  generalize hv : u.str = v at h
  cases h with
  | stored h => exact .stored (hk ▸ hv ▸ h)
  | attempts => exact absurd hk ((pwdResetKey_ne x).2.2.1 _)
  | lock => exact absurd hk ((pwdResetKey_ne x).2.1 _)
  | verification h => exact absurd hk ((pwdResetKey_ne x).1 _)
  | reset h =>
    obtain rfl := (pwdResetKey_inj ..).mp hk
    obtain rfl := UUID.str_inj.mp hv
    exact h
  | token hd h => exact absurd hk ((pwdResetKey_ne x).2.2.2.1 _)

/-- A live refresh token was live at the start, or it is of a session that some request opened. -/
theorem Origin.refreshToken {j : String} (h : Origin env w jobs told (refreshTokenKey j) v) :
    w.text (refreshTokenKey j) = some v ∨ ∃ i d u, (jobs i).draws = some d ∧
      d.refreshJti.str = j ∧ v = u.str ∧ Descends env w jobs told i u := by
  generalize hk : refreshTokenKey j = key at h
  cases h with
  | stored h => exact .inl h
  | attempts => exact absurd hk ((refreshTokenKey_ne j).2.2.1 _)
  | lock => exact absurd hk ((refreshTokenKey_ne j).2.1 _)
  | verification h => exact absurd hk ((refreshTokenKey_ne j).1 _)
  | reset h => exact absurd hk ((refreshTokenKey_ne j).2.2.2.1 _)
  | @token i d u hd h => exact .inr ⟨i, d, u, hd, ((refreshTokenKey_inj ..).mp hk).symm, rfl, h⟩

end Lemmas

/-! ## What one command leaves behind -/

section Commands
variable {ι : Type} {env : Env} {w : Auth.World} {jobs : ι → Job}
  {told : ι → Hearing} {l : Auth.Session} {v : Auth.World} {cmd : Auth.Cmd} {i : ι} {u : UUID}

/-- What a job may do to the accounts, by what it has heard: a call decodes its token, and
reads the account that an access token names. -/
def Job.May (env : Env) (h : Hearing) : Job → Auth.Cmd → Prop
  | .auth r, cmd => r.May env.auth h cmd
  | .call c, cmd => ∃ token, env.bearer c.authorization = some token ∧
      (cmd = .decodeToken token ∨ ∃ p u, h.Told (.decodeToken token) p ∧ p.type = .access ∧
        p.sub = u.str ∧ cmd = .getById u)

/-- What has been heard is so: rows, texts and tokens have origins. -/
structure Hears (env : Env) (w : Auth.World) (jobs : ι → Job) (told : ι → Hearing) : Prop where
  byId : ∀ i id user, (told i).Told (.getById id) (some user) →
    Vouched env w jobs told user ∧ user.id = id ∧ user.deletedAt = none
  byEmail : ∀ i email user, (told i).Told (.getByEmail email) (some user) →
    Vouched env w jobs told user ∧ user.email = env.auth.lower email
  added : ∀ i id email hash name row, (told i).Told (.add id email hash name) row →
    ∃ v : Auth.World, row = v.newUser id email hash name
  gets : ∀ i key s, (told i).Told (.get key) (some s) → Origin env w jobs told key s
  decoded : ∀ i T p, (told i).Told (.decodeToken T) p →
    env.auth.decode T = some p ∧ Sent env w jobs told T

/-- Everything a world holds has an origin. -/
structure Grounded (env : Env) (w : Auth.World) (jobs : ι → Job) (told : ι → Hearing)
    (v : Auth.World) : Prop where
  rows : ∀ row ∈ v.users, Vouched env w jobs told row
  texts : ∀ key s, v.text key = some s → Origin env w jobs told key s
  sent : ∀ T ∈ v.issued, Sent env w jobs told T

theorem Grounded.mono {told' : ι → Hearing} (hsub : ∀ i, told i ⊆ told' i)
    (h : Grounded env w jobs told v) : Grounded env w jobs told' v where
  rows row hrow := (h.rows row hrow).mono hsub
  texts key s ht := (h.texts key s ht).mono hsub
  sent T hT := (h.sent T hT).mono hsub

theorem Born.vouched {row : User} (h : Born env w jobs told row) : Vouched env w jobs told row where
  born := ⟨row, h, rfl, rfl⟩
  password := .born h
  verified hv := .born h hv

theorem Hears.descends (hears : Hears env w jobs told) {r : Auth.Request} (hjob : jobs i = .auth r)
    (h : Entitled env.auth r (told i) u) : Descends env w jobs told i u := by
  cases h with
  | @login email password d user hr huser hvalid hverified =>
    subst hr
    obtain ⟨hrow, hemail⟩ := hears.byEmail i _ user huser
    exact .login hjob huser hemail hrow hvalid hverified
  | @refresh T d p u hr hp htype hkey hsub =>
    subst hr
    have hdecode := (hears.decoded i T p hp).1
    rw [hsub] at hkey
    rcases (hears.gets i _ _ hkey).refreshToken with hlive | ⟨j, d', u', hd, hj, hu, hdesc⟩
    · exact .stored hjob hdecode htype hsub hkey hlive
    · obtain rfl := UUID.str_inj.mp hu
      exact .refreshed hjob hdecode htype hsub hkey hd hj.symm hdesc

theorem Hears.origin (hears : Hears env w jobs told) {r : Auth.Request} (hjob : jobs i = .auth r)
    {key s : String} (h : MaySet env.auth r (told i) key s) : Origin env w jobs told key s := by
  cases h with
  | lock => exact .lock
  | @verification email password fullName d row hr hadd =>
    subst hr
    obtain ⟨v, rfl⟩ := hears.added i _ _ _ _ row hadd
    exact .verification (.registered hjob rfl hadd)
  | @reset email x user hr huser =>
    subst hr
    exact .reset (.requested hjob huser (hears.byEmail i _ user huser).2)
  | @token d u hd hu =>
    have hdraws : (jobs i).draws = some d := by
      rw [hjob]
      exact hd
    exact .token hdraws (hears.descends hjob hu)

/-! ### The table -/

theorem WriteFrom.apply {write : UserWrite} (hw : WriteFrom env w jobs told write) (now : Nat)
    {users : List User} (h : ∀ row ∈ users, Vouched env w jobs told row) :
    ∀ row ∈ write.apply now users, Vouched env w jobs told row := by
  cases hw with
  | insert hr hadd =>
    intro row hrow
    rcases List.mem_append.mp hrow with hrow | hrow
    · exact h row hrow
    · obtain rfl := List.mem_singleton.mp hrow
      exact (Born.registered hr hadd).vouched
  | emailVerified hverified =>
    intro row hrow
    obtain ⟨row₀, hrow₀, rfl⟩ := List.mem_map.mp hrow
    have hv := h row₀ hrow₀
    simp only [UserWrite.applyRow]
    split
    · rename_i hid
      exact ⟨hv.born, hv.password, fun _ => hid.1 ▸ hverified⟩
    · exact hv
  | passwordHash hpassword =>
    intro row hrow
    obtain ⟨row₀, hrow₀, rfl⟩ := List.mem_map.mp hrow
    have hv := h row₀ hrow₀
    simp only [UserWrite.applyRow]
    split
    · rename_i hid
      exact ⟨hv.born, hid.1 ▸ hpassword, hv.verified⟩
    · exact hv

theorem vouched_commit (hl : ∀ write ∈ l, WriteFrom env w jobs told write) (now : Nat)
    {users : List User} (h : ∀ row ∈ users, Vouched env w jobs told row) :
    ∀ row ∈ l.foldl (UserWrite.apply now) users, Vouched env w jobs told row := by
  induction l generalizing users with
  | nil => exact h
  | cons write l ih =>
    rw [List.foldl_cons]
    refine ih (fun x hx => hl x (List.mem_cons_of_mem _ hx)) ?_
    exact (hl write List.mem_cons_self).apply now h

theorem vouched_visible (hl : ∀ write ∈ l, WriteFrom env w jobs told write)
    (h : ∀ row ∈ v.users, Vouched env w jobs told row) :
    ∀ row ∈ visibleRows l v, Vouched env w jobs told row := by
  intro row hrow
  rcases List.mem_append.mp hrow with hrow | hrow
  · exact h row hrow
  · obtain ⟨write, hwrite, hw⟩ := List.mem_filterMap.mp hrow
    have hfrom := hl write hwrite
    cases write with
    | insert row' =>
      obtain rfl := Option.some.inj hw
      cases hfrom with
      | insert hr hadd => exact (Born.registered hr hadd).vouched
    | _ => cases hw

/-! ### The next command -/

/-- What the next command leaves in the accounts. -/
theorem Grounded.exec (hv : Grounded env w jobs told v) (hears : Hears env w jobs told)
    (hl : ∀ write ∈ l, WriteFrom env w jobs told write) (hmay : (jobs i).May env (told i) cmd) :
    Grounded env w jobs told (Auth.exec env.auth cmd (l, v)).2.2 where
  rows row hrow := by
    by_cases hc : cmd = .commit
    · subst hc
      exact vouched_commit hl v.now hv.rows row hrow
    · rw [Auth.exec_users (.inl hc)] at hrow
      exact hv.rows row hrow
  texts key s ht := by
    rcases Auth.text_exec ht with hbefore | ⟨ex, rfl⟩ | rfl
    · exact hv.texts key s hbefore
    · cases hjob : jobs i with
      | auth r =>
        rw [hjob] at hmay
        exact hears.origin hjob hmay
      | call c =>
        rw [hjob] at hmay
        obtain ⟨_, _, hc | ⟨_, _, _, _, _, hc⟩⟩ := hmay <;> cases hc
    · cases hjob : jobs i with
      | auth r =>
        rw [hjob] at hmay
        obtain ⟨email, rfl⟩ := hmay
        exact .attempts
      | call c =>
        rw [hjob] at hmay
        obtain ⟨_, _, hc | ⟨_, _, _, _, _, hc⟩⟩ := hmay <;> cases hc
  sent T hT := by
    cases cmd with
    | respond tokens =>
      cases hjob : jobs i with
      | auth r =>
        rw [hjob] at hmay
        obtain ⟨u, pair, rfl, hpair, hu⟩ := hmay
        rcases List.mem_append.mp hT with hT | hT
        · have hpair' : T = pair.1 ∨ T = pair.2 := by simpa using hT
          exact .issued hjob hpair hpair' (hears.descends hjob hu)
        · exact hv.sent T hT
      | call c =>
        rw [hjob] at hmay
        obtain ⟨_, _, hc | ⟨_, _, _, _, _, hc⟩⟩ := hmay <;> cases hc
    | incr key =>
      simp only [Auth.exec] at hT
      split at hT <;> exact hv.sent T hT
    | add id email hash name =>
      simp only [Auth.exec] at hT
      split at hT <;> exact hv.sent T hT
    | decodeToken T' =>
      rw [Auth.exec_decodeToken] at hT
      exact hv.sent T hT
    | _ => exact hv.sent T hT

variable [DecidableEq ι]

/-- The reply to a command of `i` is heard. -/
abbrev hearing (env : Env) (told : ι → Hearing) (i : ι) (cmd : Auth.Cmd) (l : Auth.Session)
    (v : Auth.World) : ι → Hearing :=
  Function.update told i (⟨cmd, (Auth.exec env.auth cmd (l, v)).1⟩ :: told i)

/-- What is heard next was heard before, or is the reply to this command. -/
theorem told_hearing {j : ι} {cmd' : Auth.Cmd} {value : cmd'.Val}
    (h : (hearing env told i cmd l v j).Told cmd' value) :
    (cmd = cmd' ∧ (Auth.exec env.auth cmd' (l, v)).1 = .ok value) ∨ (told j).Told cmd' value := by
  rcases told_update h with hnew | hold
  · obtain ⟨rfl, hreply⟩ := Sigma.mk.inj_iff.mp hnew
    exact .inl ⟨rfl, eq_of_heq hreply⟩
  · exact .inr hold

/-- What is heard next is so. -/
theorem Hears.exec (hears : Hears env w jobs told) (hv : Grounded env w jobs told v)
    (hl : ∀ write ∈ l, WriteFrom env w jobs told write) :
    Hears env w jobs (hearing env told i cmd l v) := by
  have hsub : ∀ j, told j ⊆ hearing env told i cmd l v j := subset_update told i _
  have hvisible := vouched_visible hl hv.rows
  constructor
  case byId =>
    intro j id user ht
    rcases told_hearing ht with ⟨-, hreply⟩ | hold
    · have hfound := Except.ok.inj hreply
      have hp := List.find?_some hfound
      simp only [Bool.and_eq_true, beq_iff_eq, Option.isNone_iff_eq_none] at hp
      exact ⟨(hvisible user (List.mem_of_find?_eq_some hfound)).mono hsub, hp.2, hp.1⟩
    · obtain ⟨hrow, hid, hdel⟩ := hears.byId j id user hold
      exact ⟨hrow.mono hsub, hid, hdel⟩
  case byEmail =>
    intro j email user ht
    rcases told_hearing ht with ⟨-, hreply⟩ | hold
    · have hfound := Except.ok.inj hreply
      have hp := List.find?_some hfound
      simp only [Bool.and_eq_true, beq_iff_eq] at hp
      exact ⟨(hvisible user (List.mem_of_find?_eq_some hfound)).mono hsub, hp.2⟩
    · obtain ⟨hrow, hemail⟩ := hears.byEmail j email user hold
      exact ⟨hrow.mono hsub, hemail⟩
  case added =>
    intro j id email hash name row ht
    rcases told_hearing ht with ⟨-, hreply⟩ | hold
    · simp only [Auth.exec] at hreply
      split at hreply
      · exact ⟨v, (Except.ok.inj hreply).symm⟩
      · cases hreply
    · exact hears.added j id email hash name row hold
  case gets =>
    intro j key s ht
    rcases told_hearing ht with ⟨-, hreply⟩ | hold
    · exact (hv.texts key s (Except.ok.inj hreply)).mono hsub
    · exact (hears.gets j key s hold).mono hsub
  case decoded =>
    intro j T p ht
    rcases told_hearing ht with ⟨-, hreply⟩ | hold
    · simp only [Auth.exec] at hreply
      split at hreply
      · rename_i hdecode
        obtain rfl := Except.ok.inj hreply
        obtain ⟨hissued, hp⟩ := Auth.decode_of_decodeToken hdecode
        exact ⟨hp, (hv.sent T hissued).mono hsub⟩
      · cases hreply
    · obtain ⟨hp, hsent⟩ := hears.decoded j T p hold
      exact ⟨hp, hsent.mono hsub⟩

/-- What the next command adds to its session. -/
theorem writeFrom_exec (hears : Hears env w jobs told) (hl : ∀ write ∈ l, WriteFrom env w jobs told write)
    (hmay : (jobs i).May env (told i) cmd) : ∀ write ∈ (Auth.exec env.auth cmd (l, v)).2.1,
      WriteFrom env w jobs (hearing env told i cmd l v) write := by
  have hsub : ∀ j, told j ⊆ hearing env told i cmd l v j := subset_update told i _
  have hkept : ∀ write ∈ l, WriteFrom env w jobs (hearing env told i cmd l v) write :=
    fun write hw => (hl write hw).mono hsub
  intro write hw
  cases hjob : jobs i with
  | call c =>
    rw [hjob] at hmay
    obtain ⟨_, _, rfl | ⟨_, _, _, _, _, rfl⟩⟩ := hmay
    · rw [Auth.exec_decodeToken] at hw
      exact hkept write hw
    · exact hkept write hw
  | auth r =>
    rw [hjob] at hmay
    cases cmd with
    | add id email hash name =>
      obtain ⟨e, password, d, rfl, rfl, rfl, rfl⟩ := hmay
      simp only [Auth.exec] at hw
      split at hw
      · rename_i haccepts
        rcases List.mem_append.mp hw with hw | hw
        · exact hkept write hw
        · obtain rfl := List.mem_singleton.mp hw
          have hreply : (hearing env told i (addOf env e password name d) l v i).Told
              (addOf env e password name d) (rowOf env v e password name d) := by
            rw [hearing, Function.update_self, Auth.exec, if_pos haccepts]
            exact .head
          exact .insert hjob hreply
      · exact hkept write hw
    | assignEmailVerified user =>
      obtain ⟨x, u, rfl, hkey, huser⟩ := hmay
      rcases List.mem_append.mp hw with hw | hw
      · exact hkept write hw
      · obtain rfl := List.mem_singleton.mp hw
        obtain rfl := (hears.byId i u user huser).2.1
        have hlink := (hears.gets i _ _ hkey).verifyLink
        exact (WriteFrom.emailVerified (.link hjob hkey hlink)).mono hsub
    | assignPasswordHash user hash =>
      obtain ⟨x, newPassword, salt, u, rfl, rfl, hkey, huser⟩ := hmay
      rcases List.mem_append.mp hw with hw | hw
      · exact hkept write hw
      · obtain rfl := List.mem_singleton.mp hw
        obtain rfl := (hears.byId i u user huser).2.1
        have hlink := (hears.gets i _ _ hkey).resetLink
        exact (WriteFrom.passwordHash (.reset hjob hkey hlink)).mono hsub
    | commit | rollback => cases hw
    | incr key =>
      simp only [Auth.exec] at hw
      split at hw <;> exact hkept write hw
    | decodeToken T =>
      rw [Auth.exec_decodeToken] at hw
      exact hkept write hw
    | _ => exact hkept write hw

end Commands

end TaskMgtApp.App
