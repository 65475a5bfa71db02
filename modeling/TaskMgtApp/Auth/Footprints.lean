import TaskMgtApp.Auth.Accounts

/-!
# The keys a request may touch

Every request writes only under keys that its arguments, its draws and what it has
looked up determine; whatever is kept under any other key stays as it is. Two stores
that keep the same under a key still do after the same write to both.
-/
namespace TaskMgtApp.Auth

open TaskMgtApp.Common
open TaskMgtApp.Lib.ExpiringStore

/-- The Redis keys under which a request, met by the world `w`, may write. -/
inductive Request.Touches (env : Env) (w : World) : Request → String → Prop
  | register {email password fullName : String} {d : RegisterDraws} :
      Touches env w (.register email password fullName d) (emailVerifyKey d.token)
  | verifyEmail {x : String} : Touches env w (.verifyEmail x) (emailVerifyKey x)
  | attempts {email password : String} {d : IssueDraws} :
      Touches env w (.login email password d) (loginAttemptsKey (env.lower email))
  | lock {email password : String} {d : IssueDraws} :
      Touches env w (.login email password d) (loginLockKey (env.lower email))
  | loginToken {email password : String} {d : IssueDraws} :
      Touches env w (.login email password d) (refreshTokenKey d.refreshJti.str)
  | loginIndex {email password : String} {d : IssueDraws} {user : User}
      (huser : w.userByEmail env (env.lower email) = some user) :
      Touches env w (.login email password d) (userTokensKey user.id)
  | requestReset {email x : String} : Touches env w (.requestPasswordReset email x) (pwdResetKey x)
  | reset {x newPassword salt : String} :
      Touches env w (.resetPassword x newPassword salt) (pwdResetKey x)
  | revoked {x newPassword salt j : String} {u : UUID} (htext : w.text (pwdResetKey x) = some u.str)
      (hj : j ∈ w.redis.sets (userTokensKey u)) :
      Touches env w (.resetPassword x newPassword salt) (refreshTokenKey j)
  | revokedIndex {x newPassword salt : String} {u : UUID} (htext : w.text (pwdResetKey x) = some u.str) :
      Touches env w (.resetPassword x newPassword salt) (userTokensKey u)
  | refresh {T : String} {d : IssueDraws} {p : Claims} (hclaims : w.refreshClaims env T = some p) :
      Touches env w (.refreshAccessToken T d) (refreshTokenKey p.jti)
  | refreshIndex {T : String} {d : IssueDraws} {p : Claims} {u : UUID}
      (hclaims : w.refreshClaims env T = some p) (hsub : p.sub = u.str) :
      Touches env w (.refreshAccessToken T d) (userTokensKey u)
  | refreshToken {T : String} {d : IssueDraws} :
      Touches env w (.refreshAccessToken T d) (refreshTokenKey d.refreshJti.str)
  | logout {T : String} {p : Claims} (hclaims : w.refreshClaims env T = some p) :
      Touches env w (.logout T) (refreshTokenKey p.jti)
  | logoutIndex {T : String} {p : Claims} {u : UUID} (hclaims : w.refreshClaims env T = some p)
      (hsub : p.sub = u.str) : Touches env w (.logout T) (userTokensKey u)

/-- What is kept under a key is the same in both stores. -/
structure SameAt (s s' : Redis) (k : String) : Prop where
  look : ∀ t, s'.look t k = s.look t k
  sets : s'.sets k = s.sets k

section SameAt
variable {s s' s'' : Redis} {k k' : String} {t : Nat}

theorem SameAt.rfl : SameAt s s k := ⟨fun _ => Eq.refl _, Eq.refl _⟩

theorem SameAt.trans (h : SameAt s s' k) (h' : SameAt s' s'' k) : SameAt s s'' k :=
  ⟨fun t => (h'.look t).trans (h.look t), h'.sets.trans h.sets⟩

theorem sameAt_setEx (hk : k ≠ k') (v : Value) (ex : Nat) : SameAt s (s.setEx t k' v ex) k :=
  ⟨fun now => by rw [Store.look_setEx, if_neg hk], by rw [Store.sets_setEx]⟩

theorem sameAt_delete {ks : Finset String} (hk : k ∉ ks) : SameAt s (s.delete t ks).2 k :=
  ⟨fun now => by rw [Store.look_delete, if_neg hk], by rw [Store.sets_delete, if_neg hk]⟩

theorem sameAt_srem (hk : k ≠ k') (m : String) : SameAt s (s.srem k' m).2 k :=
  ⟨fun now => Store.look_srem now k' k m s, by rw [Store.sets_srem, if_neg hk]⟩

theorem sameAt_recordToken {env : Env} {w : World} {u : UUID} {d : IssueDraws}
    (htoken : k ≠ refreshTokenKey d.refreshJti.str) (hindex : k ≠ userTokensKey u) :
    SameAt s (World.recordToken env { w with redis := s } u d) k := by
  refine (sameAt_setEx (t := w.now) htoken (.text u.str) env.settings.refreshSeconds).trans ?_
  unfold World.recordToken
  exact ⟨fun now => Store.look_sadd now _ k _ _, by rw [Store.sets_sadd, if_neg hindex]⟩

theorem sameAt_revokeAll {w : World} {u : UUID}
    (htokens : ∀ j ∈ s.sets (userTokensKey u), k ≠ refreshTokenKey j)
    (hindex : k ≠ userTokensKey u) : SameAt s (World.revokeAll { w with redis := s } u) k := by
  refine (sameAt_delete (t := w.now) ?_).trans (sameAt_delete (t := w.now) ?_)
  · intro hmem
    obtain ⟨j, hj, rfl⟩ := Finset.mem_image.mp hmem
    exact htokens j hj rfl
  · exact fun hmem => hindex (Finset.mem_singleton.mp hmem)

theorem sameAt_failedAttempt {env : Env} {w : World} {email : String} {redis : Redis}
    (h : w.failedAttempt env email = some redis) (ha : k ≠ loginAttemptsKey email)
    (hl : k ≠ loginLockKey email) : SameAt w.redis redis k :=
  ⟨fun t => failedAttempt_look h t ha hl, failedAttempt_sets h ha⟩

end SameAt

/-- The refresh tokens that decode name an account. -/
def WellFormed (env : Env) (w : World) : Prop :=
  ∀ T p, w.refreshClaims env T = some p → UUID.parse p.sub ≠ none

theorem Effect.frame {env : Env} {w w' : World} {r : Request} {o : Except Exc Reply}
    (he : Effect env w r o w') (hformed : WellFormed env w) {k : String}
    (hk : ¬ r.Touches env w k) : SameAt w.redis w'.redis k := by
  have hne : ∀ {k'}, r.Touches env w k' → k ≠ k' := fun hk' h => hk (h ▸ hk')
  cases he with
  | refused | unknownEmail | alreadyLoggedOut => exact .rfl
  | registered => exact sameAt_setEx (hne .register) _ _
  | verified => exact sameAt_delete (t := w.now) fun h => hne .verifyEmail (Finset.mem_singleton.mp h)
  | attemptFailed email password d redis hlock huser hfailed =>
    exact sameAt_failedAttempt hfailed (hne .attempts) (hne .lock)
  | loggedIn email password d user hlock huser hverified =>
    have hfound := (Option.filter_eq_some_iff.mp huser).1
    refine (sameAt_delete (t := w.now) ?_).trans
      (sameAt_recordToken (hne .loginToken) (hne (.loginIndex hfound)))
    intro h
    rcases Finset.mem_insert.mp h with h | h
    · exact hne .attempts h
    · exact hne .lock (Finset.mem_singleton.mp h)
  | resetRequested => exact sameAt_setEx (hne .requestReset) _ _
  | reset x newPassword salt userId user htext huser =>
    obtain rfl := World.id_of_userById huser
    refine (sameAt_delete (t := w.now) fun h => hne .reset (Finset.mem_singleton.mp h)).trans
      (sameAt_revokeAll ?_ (hne (.revokedIndex htext)))
    exact fun j hj => hne (.revoked htext (sets_of_delete w.now hj))
  | refreshed T d p u hclaims hsub =>
    have hp := ((acceptedClaims_eq_some_iff env w).mp hclaims).1
    have hdel : SameAt w.redis (w.redis.delete w.now {refreshTokenKey p.jti}).2 k :=
      sameAt_delete fun h => hne (.refresh hp) (Finset.mem_singleton.mp h)
    exact (hdel.trans (sameAt_srem (hne (.refreshIndex hp hsub)) p.jti)).trans
      (sameAt_recordToken (hne .refreshToken) (hne (.refreshIndex hp hsub)))
  | loggedOut T p u hclaims hsub =>
    have hdel : SameAt w.redis (w.redis.delete w.now {refreshTokenKey p.jti}).2 k :=
      sameAt_delete fun h => hne (.logout hclaims) (Finset.mem_singleton.mp h)
    exact hdel.trans (sameAt_srem (hne (.logoutIndex hclaims hsub)) p.jti)
  | malformedSubject _ T p hclaims hsub => exact absurd hsub (hformed T p hclaims)

/-! ## The same write to two stores -/

section Writes
variable {s s' : Redis} {k k' : String} {t : Nat}

theorem SameAt.symm (h : SameAt s s' k) : SameAt s' s k := ⟨fun t => (h.look t).symm, h.sets.symm⟩

theorem SameAt.put (h : SameAt s s' k) (c : Cell Value) : SameAt (s.put k' c) (s'.put k' c) k :=
  ⟨fun n => by rw [Store.look_put, Store.look_put, h.look n], h.sets⟩

theorem SameAt.setEx (h : SameAt s s' k) (v : Value) (ex : Nat) :
    SameAt (s.setEx t k' v ex) (s'.setEx t k' v ex) k := h.put _

theorem SameAt.delete (h : SameAt s s' k) (ks : Finset String) :
    SameAt (s.delete t ks).2 (s'.delete t ks).2 k :=
  ⟨fun n => by rw [Store.look_delete, Store.look_delete, h.look n],
    by rw [Store.sets_delete, Store.sets_delete, h.sets]⟩

theorem SameAt.expire (h : SameAt s s' k) (hk : SameAt s s' k') (seconds : Nat) :
    SameAt (s.expire t k' seconds).2 (s'.expire t k' seconds).2 k := by
  unfold Store.expire
  rw [hk.look t]
  cases s.look t k' with
  | none => exact h
  | some c => exact h.put _

theorem SameAt.ttl (h : SameAt s s' k) : s'.ttl t k = s.ttl t k :=
  Store.ttl_congr (h.look t) h.sets

/-- A counter goes on alike. -/
theorem incr_alike (hk : SameAt s s' k') :
    (s.incr Value.toInt? Value.num t k' = none ∧ s'.incr Value.toInt? Value.num t k' = none) ∨
      ∃ n r r', s.incr Value.toInt? Value.num t k' = some (n, r) ∧
        s'.incr Value.toInt? Value.num t k' = some (n, r') ∧ ∀ k, SameAt s s' k → SameAt r r' k := by
  unfold Store.incr
  rw [hk.look t]
  cases s.look t k' with
  | none => exact .inr ⟨_, _, _, rfl, rfl, fun k h => h.put _⟩
  | some c =>
    dsimp only
    cases c.value.toInt? with
    | none => exact .inl ⟨rfl, rfl⟩
    | some n => exact .inr ⟨_, _, _, rfl, rfl, fun k h => h.put _⟩

theorem SameAt.text {w w' : World} (hnow : w'.now = w.now) (h : SameAt w.redis w'.redis k) :
    w'.text k = w.text k := by
  unfold World.text Store.get
  rw [hnow, h.look]

theorem SameAt.sadd (h : SameAt s s' k) (m : String) :
    SameAt (s.sadd k' m).2 (s'.sadd k' m).2 k := by
  refine ⟨fun n => by rw [Store.look_sadd, Store.look_sadd, h.look n], ?_⟩
  rw [Store.sets_sadd, Store.sets_sadd]
  split
  · rename_i hk
    rw [← hk, h.sets]
  · exact h.sets

theorem SameAt.srem (h : SameAt s s' k) (m : String) :
    SameAt (s.srem k' m).2 (s'.srem k' m).2 k := by
  refine ⟨fun n => by rw [Store.look_srem, Store.look_srem, h.look n], ?_⟩
  rw [Store.sets_srem, Store.sets_srem]
  split
  · rename_i hk
    rw [← hk, h.sets]
  · exact h.sets

theorem SameAt.recordToken {env : Env} {w w' : World} {u : UUID} {d : IssueDraws}
    (hnow : w'.now = w.now) (h : SameAt w.redis w'.redis k) :
    SameAt (w.recordToken env u d) (w'.recordToken env u d) k := by
  unfold World.recordToken
  rw [hnow]
  exact (h.setEx _ _).sadd _

theorem SameAt.revokeAll {w w' : World} {u : UUID} (hnow : w'.now = w.now)
    (hindex : w'.redis.sets (userTokensKey u) = w.redis.sets (userTokensKey u))
    (h : SameAt w.redis w'.redis k) : SameAt (w.revokeAll u) (w'.revokeAll u) k := by
  unfold World.revokeAll Store.smembers
  rw [hnow, hindex]
  exact (h.delete _).delete _

end Writes

/-- A failed attempt is counted alike. -/
theorem failedAttempt_alike (env : Env) {w w' : World} {email : String} (hnow : w.now = w'.now)
    (hattempts : SameAt w.redis w'.redis (loginAttemptsKey email)) :
    (w.failedAttempt env email = none ∧ w'.failedAttempt env email = none) ∨
      ∃ r r', w.failedAttempt env email = some r ∧ w'.failedAttempt env email = some r' ∧
        ∀ k, SameAt w.redis w'.redis k → SameAt r r' k := by
  unfold World.failedAttempt
  rw [← hnow]
  rcases incr_alike (t := w.now) hattempts with ⟨hi, hi'⟩ | ⟨n, r, r', hi, hi', hsame⟩
  · left
    rw [hi, hi']
    exact ⟨rfl, rfl⟩
  · right
    rw [hi, hi']
    refine ⟨_, _, rfl, rfl, fun k hk => ?_⟩
    have hexpired := (hsame k hk).expire (t := w.now) (hsame _ hattempts) env.settings.lockoutSeconds
    dsimp only
    split
    · exact (hexpired.setEx _ _).delete _
    · exact hexpired

end TaskMgtApp.Auth
