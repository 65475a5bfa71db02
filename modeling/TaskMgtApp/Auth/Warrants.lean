import TaskMgtApp.Auth.Concurrent
import TaskMgtApp.Lib.Warrant

/-!
# Every credential has a warrant

Any number of requests side by side, from any state. A password hash, a verified email and
a refresh token each come from somewhere: from the start, or from a request that was shown
what it takes. The chain of refreshes behind a token ends in a login that passed its check,
and what that login read of the account has a warrant too.
-/
namespace TaskMgtApp.Auth

open TaskMgtApp.Common
open TaskMgtApp.Lib.Program TaskMgtApp.Lib.Program.Prog
open TaskMgtApp.Lib.Interleaving TaskMgtApp.Lib.ExpiringStore TaskMgtApp.Lib.Warrant

/-! ## What a request must have heard -/

/-- What a request has heard lets it open a session of `u`. -/
inductive Entitled (env : Env) (r : Request) (h : Hearing Cmd.Val Exc) : UUID → Prop
  | login {email password : String} {d : IssueDraws} {user : User}
      (hr : r = .login email password d)
      (huser : h.Told (.getByEmail (env.lower email)) (some user))
      (hvalid : credentialsValid env password user = true)
      (hverified : user.isEmailVerified = true) : Entitled env r h user.id
  | refresh {T : String} {d : IssueDraws} {p : Claims} {u : UUID}
      (hr : r = .refreshAccessToken T d) (hp : h.Told (.decodeToken T) p)
      (htype : p.type = .refresh) (hkey : h.Told (.get (refreshTokenKey p.jti)) (some p.sub))
      (hsub : p.sub = u.str) : Entitled env r h u

/-- The text a request sets under a key, by what it has heard. -/
inductive MaySet (env : Env) (r : Request) (h : Hearing Cmd.Val Exc) : String → String → Prop
  | lock {email v : String} : MaySet env r h (loginLockKey email) v
  | verification {email password fullName : String} {d : RegisterDraws} {row : User}
      (hr : r = .register email password fullName d)
      (hadd : h.Told (.add d.userId (env.lower email) (env.hash password d.salt) fullName) row) :
      MaySet env r h (emailVerifyKey d.token) row.id.str
  | reset {email x : String} {user : User} (hr : r = .requestPasswordReset email x)
      (huser : h.Told (.getByEmail (env.lower email)) (some user)) :
      MaySet env r h (pwdResetKey x) user.id.str
  | token {d : IssueDraws} {u : UUID} (hd : r.draws = some d) (hu : Entitled env r h u) :
      MaySet env r h (refreshTokenKey d.refreshJti.str) u.str

/-- The commands a request issues, by what it has heard. -/
def Request.May (env : Env) (r : Request) (h : Hearing Cmd.Val Exc) : Cmd → Prop
  | .add id email passwordHash fullName => ∃ e password d, r = .register e password fullName d ∧
      id = d.userId ∧ email = env.lower e ∧ passwordHash = env.hash password d.salt
  | .assignEmailVerified user => ∃ x u, r = .verifyEmail x ∧
      h.Told (.get (emailVerifyKey x)) (some u.str) ∧ h.Told (.getById u) (some user)
  | .assignPasswordHash user hash => ∃ x newPassword salt u, r = .resetPassword x newPassword salt ∧
      hash = env.hash newPassword salt ∧ h.Told (.get (pwdResetKey x)) (some u.str) ∧
      h.Told (.getById u) (some user)
  | .set key value _ => MaySet env r h key value
  | .incr key => ∃ email, key = loginAttemptsKey email
  | .respond tokens => ∃ u pair, tokens = [pair.1, pair.2] ∧ PairIssued env r u pair ∧
      Entitled env r h u
  | _ => True

section Programs
variable {env : Env} {r : Request} {h h' : Hearing Cmd.Val Exc} {u : UUID}

theorem Entitled.mono (hu : Entitled env r h u) (hsub : h ⊆ h') : Entitled env r h' u := by
  cases hu with
  | login hr huser hvalid hverified => exact .login hr (huser.mono hsub) hvalid hverified
  | refresh hr hp htype hkey hs => exact .refresh hr (hp.mono hsub) htype (hkey.mono hsub) hs

/-- The program keeps to what the request `r` may do, and `P` holds of what it returns. -/
abbrev Abides (env : Env) (r : Request) {α : Type} (P : Hearing Cmd.Val Exc → α → Prop)
    (h : Hearing Cmd.Val Exc) (p : AuthM α) : Prop :=
  Warranted (exec env) (r.May env) P h p

/-- `get_db` adds a commit or a rollback. -/
theorem abides_getDb {α : Type} {P : Hearing Cmd.Val Exc → α → Prop} {body : AuthM α}
    (hbody : Abides env r P h body) (hP : ∀ h' x a, P h' a → P (x :: h') a) :
    Abides env r P h (getDb body) := by
  unfold getDb
  refine Warranted.catch ?_ fun h' e _ => warranted_perform trivial fun _ => warranted_error e
  refine hbody.bind fun h' a _ ha => warranted_perform trivial fun _ => ?_
  exact warranted_ok (hP h' _ a ha)

theorem warranted_uuidOf {May : Hearing Cmd.Val Exc → Cmd → Prop} (s : String) :
    Warranted (exec env) May (fun h' id => h' = h ∧ s = id.str) h (uuidOf s) := by
  unfold uuidOf
  cases hid : UUID.parse s with
  | none => exact warranted_error _
  | some id => exact warranted_ok ⟨rfl, UUID.parse_eq_some.mp hid⟩

/-- A token pair that the request is entitled to. -/
abbrev EntitledPair (env : Env) (r : Request) (h : Hearing Cmd.Val Exc) (pair : String × String) : Prop :=
  ∃ u, PairIssued env r u pair ∧ Entitled env r h u

theorem abides_createToken (subject : String) (tokenType : TokenType) (expiresDelta : Nat) (uuid4 : UUID)
    (extraClaims : Option (Claims → Claims)) :
    Abides env r (fun _ token => ∃ now, token = env.encode ((extraClaims.getD id)
        ⟨subject, tokenType, now, now + expiresDelta, uuid4.str⟩))
      h (createToken env subject tokenType expiresDelta uuid4 extraClaims) :=
  warranted_perform trivial fun now => warranted_ok ⟨now, rfl⟩

theorem abides_issueTokenPair {d : IssueDraws} (hd : r.draws = some d) (hu : Entitled env r h u) :
    Abides env r (EntitledPair env r) h (issueTokenPair env u d) := by
  refine (abides_createToken _ _ _ _ _).bind fun h₁ access hsub₁ haccess => ?_
  refine Warranted.bind (P := fun _ token => ∃ q, env.decode token.1 = some q ∧ MintedBy r u q ∧
    token.2 = d.refreshJti.str) ?_ fun h₂ token hsub₂ htoken => ?_
  · refine (abides_createToken _ _ _ _ _).bind fun h' token _ htoken => ?_
    obtain ⟨now, rfl⟩ := htoken
    exact warranted_ok ⟨_, env.decode_encode _, ⟨rfl, rfl, d, hd, rfl⟩, rfl⟩
  · obtain ⟨now, rfl⟩ := haccess
    obtain ⟨refresh, jti⟩ := token
    obtain ⟨q, hq, hminted, rfl⟩ := htoken
    have hu₂ : Entitled env r h₂ u := hu.mono (List.Subset.trans hsub₁ hsub₂)
    refine warranted_perform (.token hd hu₂) fun _ => warranted_perform trivial fun _ => ?_
    refine warranted_ok ⟨u, ⟨⟨_, env.decode_encode _, rfl, rfl⟩, q, hq, hminted⟩, ?_⟩
    exact (hu₂.mono (List.subset_cons_self ..)).mono (List.subset_cons_self ..)

theorem abides_decodeRefreshToken (T : String) :
    Abides env r (fun h' p => p.type = .refresh ∧ h'.Told (.decodeToken T) p) h (decodeRefreshToken T) := by
  refine Warranted.bind (P := fun h' p => h'.Told (.decodeToken T) p) ?_ fun h' p _ hp => ?_
  · refine Warranted.catch ?_ fun h' e _ => ?_
    · exact warranted_call trivial fun reply => by
        cases reply with
        | ok p => exact warranted_ok Hearing.Told.head
        | error e => exact warranted_error e
    · cases e <;> exact warranted_error _
  · split
    · exact warranted_error _
    · rename_i htype
      exact warranted_ok ⟨not_not.mp htype, hp⟩

theorem abides_registerFailedAttempt (email : String) :
    Abides env r (fun _ _ => True) h (registerFailedAttempt env email) := by
  refine warranted_perform ⟨email, rfl⟩ fun count => warranted_perform trivial fun _ => ?_
  split
  · exact warranted_perform .lock fun _ => warranted_perform trivial fun _ => warranted_ok trivial
  · exact warranted_ok trivial

theorem abides_revokeAll (u : UUID) :
    Abides env r (fun _ _ => True) h (revokeAllRefreshTokens u) := by
  have hlast : ∀ h', Abides env r (fun _ _ => True) h' (redisDelete {userTokensKey u} >>= fun _ => pure ()) :=
    fun h' => warranted_perform trivial fun _ => warranted_ok trivial
  refine warranted_perform trivial fun jtis => ?_
  split
  · exact hlast _
  · exact warranted_perform trivial fun _ => hlast _

theorem abides_register (email password fullName : String) (d : RegisterDraws) :
    Abides env (.register email password fullName d) (fun _ _ => True) h
      (register env email password fullName d) := by
  refine warranted_perform trivial fun existing => ?_
  split
  · exact warranted_error _
  · refine warranted_perform ⟨email, password, d, rfl, rfl, rfl, rfl⟩ fun user => ?_
    exact warranted_perform (.verification rfl .head) fun _ => warranted_ok trivial

theorem abides_verifyEmail (x : String) :
    Abides env (.verifyEmail x) (fun _ _ => True) h (verifyEmail x) := by
  refine warranted_perform trivial fun userId => ?_
  cases userId with
  | none => exact warranted_error _
  | some userId =>
    refine (warranted_uuidOf userId).bind fun h' id _ hid => ?_
    obtain ⟨rfl, rfl⟩ := hid
    refine warranted_perform trivial fun user => ?_
    cases user with
    | none => exact warranted_error _
    | some user =>
      refine warranted_perform ⟨x, id, rfl, .later .head, .head⟩ fun _ => warranted_perform trivial fun _ => ?_
      exact warranted_ok trivial

theorem abides_login (email password : String) (d : IssueDraws) :
    Abides env (.login email password d) (EntitledPair env (.login email password d)) h
      (login env email password d) := by
  refine warranted_perform trivial fun lockTtl => ?_
  split
  · exact warranted_error _
  · refine warranted_perform trivial fun found => ?_
    split
    · exact (abides_registerFailedAttempt _).bind fun _ _ _ _ => warranted_error _
    · rename_i user hfilter
      obtain ⟨rfl, hvalid⟩ := Option.filter_eq_some_iff.mp hfilter
      split
      · exact warranted_error _
      · rename_i hverified
        refine warranted_perform trivial fun _ => abides_issueTokenPair rfl ?_
        exact .login rfl (.later .head) hvalid (by simpa using hverified)

theorem abides_requestPasswordReset (email x : String) :
    Abides env (.requestPasswordReset email x) (fun _ _ => True) h (requestPasswordReset env email x) := by
  refine warranted_perform trivial fun user => ?_
  cases user with
  | none => exact warranted_ok trivial
  | some user => exact warranted_perform (.reset rfl .head) fun _ => warranted_ok trivial

theorem abides_resetPassword (x newPassword salt : String) :
    Abides env (.resetPassword x newPassword salt) (fun _ _ => True) h
      (resetPassword env x newPassword salt) := by
  refine warranted_perform trivial fun userId => ?_
  cases userId with
  | none => exact warranted_error _
  | some userId =>
    refine (warranted_uuidOf userId).bind fun h' id _ hid => ?_
    obtain ⟨rfl, rfl⟩ := hid
    refine warranted_perform trivial fun user => ?_
    cases user with
    | none => exact warranted_error _
    | some user =>
      refine warranted_perform ⟨x, newPassword, salt, id, rfl, rfl, .later .head, .head⟩ fun _ => ?_
      exact warranted_perform trivial fun _ => abides_revokeAll user.id

theorem abides_refreshAccessToken (T : String) (d : IssueDraws) :
    Abides env (.refreshAccessToken T d) (EntitledPair env (.refreshAccessToken T d)) h
      (refreshAccessToken env T d) := by
  refine (abides_decodeRefreshToken T).bind fun h₁ p _ hp => ?_
  obtain ⟨htype, htold⟩ := hp
  refine warranted_perform trivial fun stored => ?_
  split
  · exact warranted_error _
  · rename_i hstored
    obtain rfl := not_not.mp hstored
    refine warranted_perform trivial fun _ => (warranted_uuidOf p.sub).bind fun h₂ u _ hu => ?_
    obtain ⟨rfl, hsub⟩ := hu
    refine warranted_perform trivial fun _ => abides_issueTokenPair rfl ?_
    exact .refresh rfl htold.later.later.later htype (.later (.later .head)) hsub

theorem abides_logout (T : String) : Abides env (.logout T) (fun _ _ => True) h (logout T) := by
  refine Warranted.bind (P := fun _ _ => True) ?_ fun h' p _ _ => ?_
  · refine Warranted.catch ?_ fun h' e _ => ?_
    · exact (abides_decodeRefreshToken T).bind fun _ p _ _ => warranted_ok trivial
    · cases e <;> first | exact warranted_ok trivial | exact warranted_error _
  · cases p with
    | none => exact warranted_ok trivial
    | some p =>
      refine warranted_perform trivial fun _ => (warranted_uuidOf p.sub).bind fun _ u _ _ => ?_
      exact warranted_perform trivial fun _ => warranted_ok trivial

/-- A request whose body returns no tokens. -/
theorem abides_quietly {α : Type} {f : α → Reply} {body : AuthM α}
    (hbody : Abides env r (fun _ _ => True) h body) :
    Abides env r (fun _ _ => True) h (getDb body >>= fun a => return f a) :=
  (abides_getDb hbody fun _ _ _ _ => trivial).bind fun _ _ _ _ => warranted_ok trivial

/-- A request whose body returns a token pair. -/
theorem abides_respondPair {body : AuthM (String × String)} (hbody : Abides env r (EntitledPair env r) h body) :
    Abides env r (fun _ _ => True) h (getDb body >>= respondPair) := by
  refine (abides_getDb hbody ?_).bind fun h' pair _ hpair => ?_
  · rintro h' x pair ⟨u, hissued, hu⟩
    exact ⟨u, hissued, hu.mono (List.subset_cons_self ..)⟩
  · obtain ⟨u, hissued, hu⟩ := hpair
    exact warranted_perform ⟨u, pair, rfl, hissued, hu⟩ fun _ => warranted_ok trivial

/-- Every request keeps to what it may do, whatever its commands return. -/
theorem program_abides (env : Env) (r : Request) :
    Abides env r (fun _ _ => True) [] (r.program env) := by
  cases r with
  | register email password fullName d => exact abides_quietly (abides_register email password fullName d)
  | verifyEmail x => exact abides_quietly (abides_verifyEmail x)
  | login email password d => exact abides_respondPair (abides_login email password d)
  | requestPasswordReset email x => exact abides_quietly (abides_requestPasswordReset email x)
  | resetPassword x newPassword salt => exact abides_quietly (abides_resetPassword x newPassword salt)
  | refreshAccessToken T d => exact abides_respondPair (abides_refreshAccessToken T d)
  | logout T => exact abides_quietly (abides_logout T)

end Programs

/-! ## What a command leaves -/

section Commands
variable {env : Env} {l : Session} {v : World} {cmd : Cmd}

/-- A text after a command was there before it, or the command wrote it. -/
theorem text_exec {key s : String} (h : (exec env cmd (l, v)).2.2.text key = some s) :
    v.text key = some s ∨ (∃ ex, cmd = .set key s ex) ∨ cmd = .incr key := by
  have hkept : ∀ {redis : Redis}, redis.look v.now key = v.redis.look v.now key →
      { v with redis := redis }.text key = some s → v.text key = some s := by
    intro redis hlook ht
    rw [World.text, Store.get, ← hlook]
    exact ht
  cases cmd with
  | set k value ex =>
    by_cases hk : key = k
    · subst hk
      simp only [exec, World.text, Store.get, Store.look_setEx, if_true] at h
      split at h
      · obtain rfl := Option.some.inj h
        exact .inr (.inl ⟨ex, rfl⟩)
      · cases h
    · refine .inl (hkept ?_ h)
      rw [Store.look_setEx, if_neg hk]
  | delete ks =>
    by_cases hk : key ∈ ks
    · simp [exec, World.text, Store.get, hk] at h
    · refine .inl (hkept ?_ h)
      rw [Store.look_delete, if_neg hk]
  | incr k =>
    by_cases hk : key = k
    · exact .inr (.inr (hk ▸ rfl))
    · simp only [exec] at h
      split at h
      · rename_i hincr
        exact .inl (hkept (Store.look_incr_of_ne v.now v.now hincr hk) h)
      · exact .inl h
  | expire k seconds =>
    obtain ⟨value, hget, rfl⟩ := Option.map_eq_some_iff.mp h
    obtain ⟨d, hlook⟩ := Store.get_eq_some.mp hget
    obtain ⟨⟨value', d'⟩, hlook', rfl⟩ := Store.value_of_look_expire hlook
    exact .inl (Option.map_eq_some_iff.mpr ⟨value', Store.get_eq_some.mpr ⟨d', hlook'⟩, rfl⟩)
  | add id email hash name =>
    simp only [exec] at h
    split at h <;> exact .inl h
  | decodeToken T =>
    simp only [exec] at h
    split at h <;> exact .inl h
  | _ => exact .inl h

theorem decode_of_decodeToken {T : String} {p : Claims} (h : v.decodeToken env T = some p) :
    T ∈ v.issued ∧ env.decode T = some p := by
  unfold World.decodeToken at h
  split at h
  · rename_i hissued
    exact ⟨hissued, (Option.filter_eq_some_iff.mp h).1⟩
  · cases h

end Commands

end TaskMgtApp.Auth
