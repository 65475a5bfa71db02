import TaskMgtApp.Auth.History
import TaskMgtApp.Auth.Instance

/-!
# The exact lifetime of a refresh token

`Outstanding` says from the log alone when a refresh token is still good. The
code decides it from two structures that four operations keep in step: the keys
`refresh_token:{jti}`, which expire, and the set `user_refresh_tokens:{user}`,
which does not. `Tracks` ties both to the log along every serial run.
-/
namespace TaskMgtApp.Auth

open TaskMgtApp.Common
open TaskMgtApp.Lib.ExpiringStore

/-! ## The history-based specification -/

/-- The request returned `T` as the refresh token of a pair. -/
def Served.returns (s : Served) (T : String) : Prop :=
  ∃ a, s.outcome = .ok (.tokenPair a T)

/-- The request was a successful refresh with `T`, or a logout with `T`. -/
def Served.spends (s : Served) (T : String) : Prop :=
  (∃ d r, s.request = .refreshAccessToken T d ∧ s.outcome = .ok r) ∨ s.request = .logout T

/-- A password-reset request of the log returned `x` for the user `u`. -/
def ResetTokenOf (log : List Served) (x : String) (u : UUID) : Prop :=
  ∃ s ∈ log, ∃ user : User, s.outcome = .ok (.resetRequested (some (user, x))) ∧ user.id = u

/-- The request, served after `older`, reset the password of `u`. -/
def Served.resets (s : Served) (older : List Served) (u : UUID) : Prop :=
  ∃ x newPassword salt r, s.request = .resetPassword x newPassword salt ∧ s.outcome = .ok r ∧
    ResetTokenOf older x u

/-- `T` was returned at second `t` as a refresh token of `u`, and has since been
neither spent nor revoked by a reset of the password of `u`. -/
inductive Outstanding (T : String) (u : UUID) : List Served → Nat → Prop
  | returned {s : Served} {older : List Served} :
      s.returns T → Outstanding T u (s :: older) s.time
  | kept {s : Served} {older : List Served} {t : Nat} :
      Outstanding T u older t → ¬ s.spends T → ¬ s.resets older u →
      Outstanding T u (s :: older) t

theorem outstanding_cons {T : String} {u : UUID} {s : Served} {older : List Served} {t : Nat} :
    Outstanding T u (s :: older) t ↔
      (s.returns T ∧ t = s.time) ∨
      (Outstanding T u older t ∧ ¬ s.spends T ∧ ¬ s.resets older u) := by
  constructor
  · intro h
    cases h with
    | returned hr => exact .inl ⟨hr, rfl⟩
    | kept ho hs hr => exact .inr ⟨ho, hs, hr⟩
  · rintro (⟨hr, rfl⟩ | ⟨ho, hs, hr⟩)
    · exact .returned hr
    · exact .kept ho hs hr

theorem Outstanding.returned_in {T : String} {u : UUID} {log : List Served} {t : Nat}
    (h : Outstanding T u log t) : ∃ s ∈ log, s.returns T ∧ s.time = t := by
  induction h with
  | @returned s _ hr => exact ⟨s, List.mem_cons_self .., hr, rfl⟩
  | kept _ _ _ ih =>
    obtain ⟨s, hs, hr⟩ := ih
    exact ⟨s, List.mem_cons_of_mem _ hs, hr⟩

/-- What the log says of `T` now: it names some user `u`, it is outstanding, and
its expiry, one refresh lifetime after it was returned, lies ahead. -/
def Usable (env : Env) (h : Run) (T : String) : Prop :=
  ∃ p u t, env.decode T = some p ∧ p.sub = u.str ∧ Outstanding T u h.log t ∧
    h.world.now < t + env.settings.refreshSeconds

/-! ## What the store holds -/

/-- `T` is a refresh token of `u` that has left the app, with the claims `p`. -/
structure RefreshToken (env : Env) (issued : List String) (T : String) (p : Claims) (u : UUID) :
    Prop where
  issued : T ∈ issued
  decodes : env.decode T = some p
  type : p.type = .refresh
  sub : p.sub = u.str

/-- The tokens of the store before a request is logged, in terms of the log: those
outstanding that the request `s` neither spends nor revokes. -/
structure Kept (env : Env) (h : Run) (s : Served) (w : World) : Prop where
  now : w.now = h.world.now
  issued : w.issued = h.world.issued
  cells : ∀ j c, w.redis.look h.world.now (refreshTokenKey j) = some c ↔
    ∃ T p u t, RefreshToken env h.world.issued T p u ∧ p.jti = j ∧ c = ⟨.text u.str, some p.exp⟩ ∧
      h.world.now < p.exp ∧ Outstanding T u h.log t ∧ ¬ s.spends T ∧ ¬ s.resets h.log u
  indexed : ∀ j u d, w.redis.look h.world.now (refreshTokenKey j) = some ⟨.text u.str, d⟩ →
    j ∈ w.redis.sets (userTokensKey u)
  members : ∀ u j, j ∈ w.redis.sets (userTokensKey u) →
    ∃ T p, RefreshToken env h.world.issued T p u ∧ p.jti = j

/-- The store and the log agree on refresh tokens, and every token is told from
every other by a `jti` that some request of the log drew. -/
structure Tracks (env : Env) (h : Run) : Prop where
  cells : ∀ j c, h.world.redis.look h.world.now (refreshTokenKey j) = some c ↔
    ∃ T p u t, RefreshToken env h.world.issued T p u ∧ p.jti = j ∧ c = ⟨.text u.str, some p.exp⟩ ∧
      h.world.now < p.exp ∧ Outstanding T u h.log t
  indexed : ∀ j u d, h.world.redis.look h.world.now (refreshTokenKey j) = some ⟨.text u.str, d⟩ →
    j ∈ h.world.redis.sets (userTokensKey u)
  members : ∀ u j, j ∈ h.world.redis.sets (userTokensKey u) →
    ∃ T p, RefreshToken env h.world.issued T p u ∧ p.jti = j
  unique : ∀ T T' p p' u u', RefreshToken env h.world.issued T p u → RefreshToken env h.world.issued T' p' u' →
    p.jti = p'.jti → T = T'
  drawn : ∀ T p u, RefreshToken env h.world.issued T p u → ∃ s ∈ h.log, ∃ j ∈ s.request.jtis, j.str = p.jti
  subject : ∀ T p, T ∈ h.world.issued → env.decode T = some p → ∃ u : UUID, p.sub = u.str
  expiry : ∀ s ∈ h.log, ∀ T, s.returns T →
    ∃ p u, RefreshToken env h.world.issued T p u ∧ p.exp = s.time + env.settings.refreshSeconds

/-- The reset keys of the store name the user that the log says. -/
structure ResetTracks (h : Run) : Prop where
  cells : ∀ x c, h.world.redis.look h.world.now (pwdResetKey x) = some c →
    ∃ u : UUID, c.value = .text u.str ∧ ResetTokenOf h.log x u
  unique : ∀ x u v, ResetTokenOf h.log x u → ResetTokenOf h.log x v → u = v
  drawn : ∀ x u, ResetTokenOf h.log x u → ∃ s ∈ h.log, x ∈ s.request.oneTimeTokens

section Steps
variable {env : Env} {h : Run} {s : Served}

theorem RefreshToken.user_eq {issued : List String} {T : String} {p q : Claims} {u v : UUID}
    (ht : RefreshToken env issued T p u) (hv : RefreshToken env issued T q v) : p = q ∧ u = v := by
  have hp : p = q := Option.some.inj (ht.decodes.symm.trans hv.decodes)
  refine ⟨hp, ?_⟩
  rw [← UUID.str_inj, ← ht.sub, ← hv.sub, hp]

theorem refreshClaims_eq_some (ht : Tracks env h) {T : String} {p : Claims} :
    h.world.refreshClaims env T = some p ↔
      ∃ u, RefreshToken env h.world.issued T p u ∧ h.world.now < p.exp := by
  unfold World.refreshClaims World.decodeToken
  constructor
  · intro hc
    by_cases hi : T ∈ h.world.issued
    · simp only [hi, if_true, Option.filter_eq_some_iff, decide_eq_true_eq] at hc
      obtain ⟨⟨hd, hexp⟩, hty⟩ := hc
      obtain ⟨u, hu⟩ := ht.subject T p hi hd
      exact ⟨u, ⟨hi, hd, hty, hu⟩, hexp⟩
    · simp [hi] at hc
  · rintro ⟨u, hr, hexp⟩
    simp [hr.issued, hr.decodes, hexp, hr.type]

/-- A token is accepted exactly when it is a refresh token whose key is there. -/
theorem acceptedClaims_eq_some (ht : Tracks env h) {T : String} {p : Claims} :
    h.world.acceptedClaims env T = some p ↔
      ∃ u t, RefreshToken env h.world.issued T p u ∧ h.world.now < p.exp ∧ Outstanding T u h.log t := by
  simp only [acceptedClaims_eq_some_iff, refreshClaims_eq_some ht, World.text,
    Option.map_eq_some_iff, Store.get_eq_some]
  constructor
  · rintro ⟨⟨u, hr, hexp⟩, v, ⟨d, hl⟩, -⟩
    obtain ⟨T', p', u', t, hr', hj, -, -, ho⟩ := (ht.cells _ _).mp hl
    obtain rfl := ht.unique _ _ _ _ _ _ hr' hr hj
    obtain ⟨rfl, rfl⟩ := hr.user_eq hr'
    exact ⟨u, t, hr, hexp, ho⟩
  · rintro ⟨u, t, hr, hexp, ho⟩
    refine ⟨⟨u, hr, hexp⟩, .text u.str, ⟨some p.exp, ?_⟩, hr.sub.symm⟩
    exact (ht.cells _ _).mpr ⟨T, p, u, t, hr, rfl, rfl, hexp, ho⟩

/-! ## What each kind of request keeps -/

/-- A request that leaves token keys and token sets alone. -/
theorem Kept.of_quiet (ht : Tracks env h) {w : World} (hnow : w.now = h.world.now)
    (hissued : w.issued = h.world.issued)
    (hcells : ∀ j, w.redis.look h.world.now (refreshTokenKey j) =
      h.world.redis.look h.world.now (refreshTokenKey j))
    (hsets : ∀ u, w.redis.sets (userTokensKey u) = h.world.redis.sets (userTokensKey u))
    (hspends : ∀ T p u, RefreshToken env h.world.issued T p u → h.world.now < p.exp → ¬ s.spends T)
    (hresets : ∀ u, ¬ s.resets h.log u) : Kept env h s w where
  now := hnow
  issued := hissued
  cells j c := by
    rw [hcells, ht.cells]
    constructor
    · rintro ⟨T, p, u, t, hr, hj, hc, hexp, ho⟩
      exact ⟨T, p, u, t, hr, hj, hc, hexp, ho, hspends T p u hr hexp, hresets u⟩
    · rintro ⟨T, p, u, t, hr, hj, hc, hexp, ho, -⟩
      exact ⟨T, p, u, t, hr, hj, hc, hexp, ho⟩
  indexed j u d hl := by
    rw [hcells] at hl
    rw [hsets]
    exact ht.indexed j u d hl
  members u j hj := by
    rw [hsets] at hj
    exact ht.members u j hj

/-- A request that deletes the key of one token and takes it out of the index. -/
theorem Kept.of_spend (ht : Tracks env h) {T : String} {p : Claims} {u : UUID}
    (hr : RefreshToken env h.world.issued T p u) (hspends : ∀ T', s.spends T' ↔ T' = T)
    (hresets : ∀ v, ¬ s.resets h.log v) :
    Kept env h s { h.world with
      redis := ((h.world.redis.delete h.world.now {refreshTokenKey p.jti}).2.srem
        (userTokensKey u) p.jti).2 } where
  now := rfl
  issued := rfl
  cells j c := by
    simp only [Store.look_srem, Store.look_delete, Finset.mem_singleton, refreshTokenKey_inj]
    by_cases hj : j = p.jti
    · simp only [hj, if_true]
      constructor
      · intro hc; cases hc
      · rintro ⟨T', p', u', t, hr', hj', -, -, -, hs, -⟩
        exact absurd (ht.unique _ _ _ _ _ _ hr' hr hj') (fun he => hs ((hspends T').mpr he))
    · simp only [hj, if_false]
      rw [ht.cells]
      constructor
      · rintro ⟨T', p', u', t, hr', hj', hc, hexp, ho⟩
        refine ⟨T', p', u', t, hr', hj', hc, hexp, ho, ?_, hresets u'⟩
        intro hs
        obtain rfl := (hspends T').mp hs
        exact hj (hj' ▸ congrArg Claims.jti (hr'.user_eq hr).1)
      · rintro ⟨T', p', u', t, hr', hj', hc, hexp, ho, -⟩
        exact ⟨T', p', u', t, hr', hj', hc, hexp, ho⟩
  indexed j v d hl := by
    simp only [Store.look_srem, Store.look_delete, Finset.mem_singleton, refreshTokenKey_inj] at hl
    by_cases hj : j = p.jti
    · simp [hj] at hl
    · simp only [hj, if_false] at hl
      have hm := ht.indexed j v d hl
      by_cases hv : v = u
      · simpa [hv, hj] using hv ▸ hm
      · simpa [hv] using hm
  members v j hj := by
    apply ht.members v j
    by_cases hv : v = u
    · subst hv
      simp at hj
      exact hj.2
    · simpa [hv] using hj

/-- A reset of the password of `u`, whose key `k` goes with every indexed token. -/
theorem Kept.of_reset (ht : Tracks env h) {u : UUID} {x : String} (users : List User)
    (hspends : ∀ T, ¬ s.spends T) (hresets : ∀ v, s.resets h.log v ↔ v = u) :
    Kept env h s { h.world with
      redis := World.revokeAll { h.world with
        redis := (h.world.redis.delete h.world.now {pwdResetKey x}).2 } u
      users := users } where
  now := rfl
  issued := rfl
  cells j c := by
    simp only [World.revokeAll, Store.smembers, Store.look_delete, Store.sets_delete,
      Finset.mem_singleton, Finset.mem_image, refreshTokenKey_inj, exists_eq_right,
      refreshTokenKey_ne, userTokensKey_ne, if_false]
    by_cases hj : j ∈ h.world.redis.sets (userTokensKey u)
    · simp only [hj, if_true]
      constructor
      · intro hc; cases hc
      · rintro ⟨T, p, v, t, hr, hpj, -, -, -, -, hv⟩
        obtain ⟨T', p', hr', hj'⟩ := ht.members u j hj
        obtain rfl := ht.unique _ _ _ _ _ _ hr hr' (hpj.trans hj'.symm)
        exact absurd ((hresets v).mpr (hr.user_eq hr').2) hv
    · simp only [hj, if_false]
      rw [ht.cells]
      constructor
      · rintro ⟨T, p, v, t, hr, hpj, hc, hexp, ho⟩
        refine ⟨T, p, v, t, hr, hpj, hc, hexp, ho, hspends T, ?_⟩
        intro hv
        obtain rfl := (hresets v).mp hv
        exact hj (ht.indexed j v _ (hc ▸ (ht.cells _ _).mpr ⟨T, p, v, t, hr, hpj, hc, hexp, ho⟩))
      · rintro ⟨T, p, v, t, hr, hpj, hc, hexp, ho, -⟩
        exact ⟨T, p, v, t, hr, hpj, hc, hexp, ho⟩
  indexed j v d hl := by
    simp only [World.revokeAll, Store.smembers, Store.look_delete, Store.sets_delete,
      Finset.mem_singleton, Finset.mem_image, refreshTokenKey_inj, exists_eq_right,
      refreshTokenKey_ne, userTokensKey_ne, userTokensKey_inj, if_false] at hl ⊢
    by_cases hj : j ∈ h.world.redis.sets (userTokensKey u)
    · simp [hj] at hl
    · simp only [hj, if_false] at hl
      have hm := ht.indexed j v d hl
      by_cases hv : v = u
      · exact absurd (hv ▸ hm) hj
      · simpa [hv] using hm
  members v j hj := by
    apply ht.members v j
    by_cases hv : v = u
    · simp [World.revokeAll, hv] at hj
    · simpa [World.revokeAll, hv] using hj

/-! ## What each kind of request adds -/

/-- The refresh tokens after a pair has been handed out: the old ones and the new one. -/
theorem refreshToken_issue {w : World} {issued : List String} {T : String} {p : Claims} {u v : UUID}
    {d : IssueDraws} :
    RefreshToken env ((w.tokenPair env u d).1 :: (w.tokenPair env u d).2 :: issued) T p v ↔
      RefreshToken env issued T p v ∨ (T = (w.tokenPair env u d).2 ∧
        p = ⟨u.str, .refresh, w.now, w.now + env.settings.refreshSeconds, d.refreshJti.str⟩ ∧
        v = u) := by
  constructor
  · rintro ⟨hi, hd, hty, hsub⟩
    rcases List.mem_cons.mp hi with rfl | hi
    · rw [World.tokenPair, env.decode_encode] at hd
      obtain rfl := Option.some.inj hd
      cases hty
    · rcases List.mem_cons.mp hi with rfl | hi
      · rw [World.tokenPair, env.decode_encode] at hd
        obtain rfl := Option.some.inj hd
        exact .inr ⟨rfl, rfl, UUID.str_inj.mp hsub.symm⟩
      · exact .inl ⟨hi, hd, hty, hsub⟩
  · rintro (hr | ⟨rfl, rfl, rfl⟩)
    · exact ⟨List.mem_cons_of_mem _ (List.mem_cons_of_mem _ hr.issued), hr.decodes, hr.type, hr.sub⟩
    · exact ⟨List.mem_cons_of_mem _ (List.mem_cons_self ..), env.decode_encode _, rfl, rfl⟩

/-- A request that returns no token pair. -/
theorem Tracks.of_kept (ht : Tracks env h) {w : World} (hk : Kept env h s w)
    (hreturns : ∀ T, ¬ s.returns T) : Tracks env ⟨w, s :: h.log⟩ := by
  constructor
  · intro j c
    simp only [hk.now, hk.issued, hk.cells, outstanding_cons, hreturns, false_and, false_or]
  · intro j u d hl
    rw [hk.now] at hl
    exact hk.indexed j u d hl
  · simpa only [hk.issued] using hk.members
  · simpa only [hk.issued] using ht.unique
  · intro T p u hr
    obtain ⟨s', hs', hj⟩ := ht.drawn T p u (hk.issued ▸ hr)
    exact ⟨s', List.mem_cons_of_mem _ hs', hj⟩
  · intro T p hi
    exact ht.subject T p (hk.issued ▸ hi)
  · intro s' hs' T hret
    rcases List.mem_cons.mp hs' with rfl | hs'
    · exact absurd hret (hreturns T)
    · simpa only [hk.issued] using ht.expiry s' hs' T hret

/-- A request that returns the pair it recorded, under `jti`s drawn for it. -/
theorem Tracks.of_issue (ht : Tracks env h) {w : World} {u : UUID} {d : IssueDraws}
    (hk : Kept env h s w) (htime : s.time = h.world.now)
    (hret : s.outcome = .ok (.tokenPair (w.tokenPair env u d).1 (w.tokenPair env u d).2))
    (hdraws : d.refreshJti ∈ s.request.jtis)
    (hnew : ∀ s' ∈ h.log, ∀ j ∈ s'.request.jtis, j ≠ d.refreshJti) :
    Tracks env ⟨{ w with
      redis := w.recordToken env u d
      issued := (w.tokenPair env u d).1 :: (w.tokenPair env u d).2 :: h.world.issued },
      s :: h.log⟩ := by
  set R := (w.tokenPair env u d).2 with hR
  set p₀ : Claims := ⟨u.str, .refresh, w.now, w.now + env.settings.refreshSeconds,
    d.refreshJti.str⟩ with hp₀
  have hdec : env.decode R = some p₀ := env.decode_encode p₀
  have hreturns : ∀ T, s.returns T ↔ T = R := by
    intro T
    simp [Served.returns, hret, eq_comm]
  have hold : ∀ T p v, RefreshToken env h.world.issued T p v → p.jti ≠ d.refreshJti.str := by
    intro T p v hr he
    obtain ⟨s', hs', j, hj, hjs⟩ := ht.drawn T p v hr
    exact hnew s' hs' j hj (UUID.str_inj.mp (hjs.trans he))
  have hrt : ∀ T p v, RefreshToken env ((w.tokenPair env u d).1 :: R :: h.world.issued) T p v ↔
      RefreshToken env h.world.issued T p v ∨ (T = R ∧ p = p₀ ∧ v = u) :=
    fun _ _ _ => refreshToken_issue
  have hne : ∀ T p v, RefreshToken env h.world.issued T p v → T ≠ R := by
    rintro T p v hr rfl
    exact hold R p v hr (by rw [Option.some.inj (hr.decodes.symm.trans hdec)])
  constructor
  · intro j c
    simp only [World.recordToken, Store.look_sadd, Store.look_setEx, refreshTokenKey_inj, hk.now]
    by_cases hj : j = d.refreshJti.str
    · have hlt : h.world.now < h.world.now + env.settings.refreshSeconds := by
        have := env.settings.refreshSeconds_pos
        omega
      simp only [hj, if_true, hlt]
      constructor
      · intro hc
        refine ⟨R, p₀, u, s.time, (hrt _ _ _).mpr (.inr ⟨rfl, rfl, rfl⟩), rfl, ?_, ?_, ?_⟩
        · simpa [hp₀, hk.now] using hc.symm
        · simpa [hp₀, hk.now] using hlt
        · exact .returned ((hreturns R).mpr rfl)
      · rintro ⟨T, p, v, t, hr, hpj, hc, -, -⟩
        rcases (hrt T p v).mp hr with hr | ⟨-, rfl, rfl⟩
        · exact absurd hpj (hold T p v hr)
        · simp [hc, hp₀, hk.now]
    · simp only [hj, if_false, hk.cells]
      constructor
      · rintro ⟨T, p, v, t, hr, hpj, hc, hexp, ho, hs, hv⟩
        exact ⟨T, p, v, t, (hrt _ _ _).mpr (.inl hr), hpj, hc, hexp, .kept ho hs hv⟩
      · rintro ⟨T, p, v, t, hr, hpj, hc, hexp, ho⟩
        rcases (hrt T p v).mp hr with hr | ⟨-, rfl, -⟩
        · rcases outstanding_cons.mp ho with ⟨hT, -⟩ | ⟨ho, hs, hv⟩
          · exact absurd ((hreturns T).mp hT) (hne T p v hr)
          · exact ⟨T, p, v, t, hr, hpj, hc, hexp, ho, hs, hv⟩
        · exact absurd hpj.symm hj
  · intro j v dl hl
    simp only [World.recordToken, Store.look_sadd, Store.look_setEx, refreshTokenKey_inj, hk.now] at hl
    simp only [World.recordToken, Store.sets_sadd, Store.sets_setEx, userTokensKey_inj]
    by_cases hj : j = d.refreshJti.str
    · have hv : u = v := by
        simp only [hj, if_true] at hl
        split at hl
        · simp only [Option.some.injEq, Cell.mk.injEq, Value.text.injEq, UUID.str_inj] at hl
          exact hl.1
        · cases hl
      simp [hv, hj]
    · simp only [hj, if_false] at hl
      have hm := hk.indexed j v dl hl
      by_cases hv : v = u
      · simpa [hv] using Or.inr (hv ▸ hm)
      · simpa [hv] using hm
  · intro v j hm
    simp only [World.recordToken, Store.sets_sadd, Store.sets_setEx, userTokensKey_inj] at hm
    have hcase : (v = u ∧ j = d.refreshJti.str) ∨ j ∈ w.redis.sets (userTokensKey v) := by
      by_cases hv : v = u
      · subst hv
        simpa using hm
      · simpa [hv] using hm
    rcases hcase with ⟨rfl, rfl⟩ | hm
    · exact ⟨R, p₀, (hrt _ _ _).mpr (.inr ⟨rfl, rfl, rfl⟩), rfl⟩
    · obtain ⟨T, p, hr, hpj⟩ := hk.members v j hm
      exact ⟨T, p, (hrt _ _ _).mpr (.inl hr), hpj⟩
  · intro T T' p p' v v' hr hr' hj
    rcases (hrt _ _ _).mp hr with hr | ⟨rfl, rfl, -⟩ <;>
      rcases (hrt _ _ _).mp hr' with hr' | ⟨rfl, rfl, -⟩
    · exact ht.unique _ _ _ _ _ _ hr hr' hj
    · exact absurd hj (hold _ _ _ hr)
    · exact absurd hj.symm (hold _ _ _ hr')
    · rfl
  · intro T p v hr
    rcases (hrt _ _ _).mp hr with hr | ⟨rfl, rfl, -⟩
    · obtain ⟨s', hs', hj⟩ := ht.drawn T p v hr
      exact ⟨s', List.mem_cons_of_mem _ hs', hj⟩
    · exact ⟨s, List.mem_cons_self .., d.refreshJti, hdraws, rfl⟩
  · intro T p hi hd
    rcases List.mem_cons.mp hi with rfl | hi
    · rw [World.tokenPair, env.decode_encode] at hd
      exact ⟨u, by rw [← Option.some.inj hd]⟩
    · rcases List.mem_cons.mp hi with rfl | hi
      · exact ⟨u, by rw [← Option.some.inj (hdec.symm.trans hd)]⟩
      · exact ht.subject T p hi hd
  · intro s' hs' T hT
    rcases List.mem_cons.mp hs' with rfl | hs'
    · obtain rfl := (hreturns T).mp hT
      exact ⟨p₀, u, (hrt _ _ _).mpr (.inr ⟨rfl, rfl, rfl⟩), by simp [hp₀, hk.now, htime]⟩
    · obtain ⟨p, v, hr, he⟩ := ht.expiry s' hs' T hT
      exact ⟨p, v, (hrt _ _ _).mpr (.inl hr), he⟩

end Steps

/-! ## Every step of a run -/

section Run
variable {env : Env} {h : Run}

theorem Tracks.start (env : Env) (now : Nat) (users : List User) : Tracks env (Run.start now users) where
  cells j c := by
    constructor
    · intro hc; cases hc
    · rintro ⟨_, _, _, _, hr, -⟩; cases hr.issued
  indexed j u d hl := by cases hl
  members u j hj := by simp [Run.start, Store.empty] at hj
  unique _ _ _ _ _ _ hr := by cases hr.issued
  drawn _ _ _ hr := by cases hr.issued
  subject _ _ hi := by cases hi
  expiry _ hs := by cases hs

theorem ResetTracks.start (now : Nat) (users : List User) : ResetTracks (Run.start now users) where
  cells x c hl := by cases hl
  unique _ _ _ hx := by obtain ⟨_, hs, -⟩ := hx; cases hs
  drawn _ _ hx := by obtain ⟨_, hs, -⟩ := hx; cases hs

/-- Time only takes away keys whose deadline has passed. -/
theorem Tracks.wait (ht : Tracks env h) (n : Nat) : Tracks env (h.step env (.wait n)) where
  cells j c := by
    have hle : h.world.now ≤ h.world.now + n := Nat.le_add_right ..
    constructor
    · intro hl
      obtain ⟨T, p, u, t, hr, hj, rfl, -, ho⟩ := (ht.cells j c).mp (Store.look_of_later hle hl)
      exact ⟨T, p, u, t, hr, hj, rfl, Store.lt_deadline hl, ho⟩
    · rintro ⟨T, p, u, t, hr, hj, rfl, hexp, ho⟩
      have hl := (ht.cells j _).mpr ⟨T, p, u, t, hr, hj, rfl, lt_of_le_of_lt hle hexp, ho⟩
      exact (Store.look_later_iff hl).mpr hexp
  indexed j u d hl := ht.indexed j u d (Store.look_of_later (Nat.le_add_right ..) hl)
  members := ht.members
  unique := ht.unique
  drawn := ht.drawn
  subject := ht.subject
  expiry := ht.expiry

theorem ResetTracks.wait (ht : ResetTracks h) (n : Nat) : ResetTracks (h.step env (.wait n)) where
  cells x c hl := ht.cells x c (Store.look_of_later (Nat.le_add_right ..) hl)
  unique := ht.unique
  drawn := ht.drawn

/-- `ResetTokenOf` after one more request. -/
theorem resetTokenOf_cons {s : Served} {log : List Served} {x : String} {u : UUID} :
    ResetTokenOf (s :: log) x u ↔
      (∃ user : User, s.outcome = .ok (.resetRequested (some (user, x))) ∧ user.id = u) ∨
      ResetTokenOf log x u := by
  simp [ResetTokenOf]

/-- A request that writes no reset key and returns no reset token. -/
theorem ResetTracks.of_quiet (ht : ResetTracks h) {w : World} {s : Served}
    (hnow : w.now = h.world.now)
    (hcells : ∀ x c, w.redis.look h.world.now (pwdResetKey x) = some c →
      h.world.redis.look h.world.now (pwdResetKey x) = some c)
    (hout : ∀ user x, s.outcome ≠ .ok (.resetRequested (some (user, x)))) :
    ResetTracks ⟨w, s :: h.log⟩ where
  cells x c hl := by
    obtain ⟨u, hv, hx⟩ := ht.cells x c (hcells x c (hnow ▸ hl))
    exact ⟨u, hv, resetTokenOf_cons.mpr (.inr hx)⟩
  unique x u v hu hv := by
    simp only [resetTokenOf_cons, hout, false_and, exists_false, false_or] at hu hv
    exact ht.unique x u v hu hv
  drawn x u hu := by
    simp only [resetTokenOf_cons, hout, false_and, exists_false, false_or] at hu
    obtain ⟨s', hs', hx⟩ := ht.drawn x u hu
    exact ⟨s', List.mem_cons_of_mem _ hs', hx⟩

/-- A reset token that is returned names a user under a draw of its own. -/
theorem ResetTracks.of_reset_requested (ht : ResetTracks h) {r : Request} {user : User} {x : String}
    (ex : Nat) (hfresh : Fresh (h.log.reverse.map (·.request) ++ [r]))
    (hdraw : x ∈ r.oneTimeTokens) :
    ResetTracks ⟨{ h.world with
      redis := h.world.redis.setEx h.world.now (pwdResetKey x) (.text user.id.str) ex },
      ⟨h.world.now, r, .ok (.resetRequested (some (user, x)))⟩ :: h.log⟩ := by
  have hnew : ∀ u, ¬ ResetTokenOf h.log x u := by
    intro u hx
    obtain ⟨s, hs, hd⟩ := ht.drawn x u hx
    exact hfresh.token_new hs hd hdraw rfl
  have hcons : ∀ y u, ResetTokenOf (⟨h.world.now, r, .ok (.resetRequested (some (user, x)))⟩ ::
      h.log) y u ↔ (y = x ∧ u = user.id) ∨ ResetTokenOf h.log y u := by
    intro y u
    rw [resetTokenOf_cons]
    constructor
    · rintro (⟨user', he, rfl⟩ | hx)
      · simp only [Except.ok.injEq, Reply.resetRequested.injEq, Option.some.injEq,
          Prod.mk.injEq] at he
        exact .inl ⟨he.2.symm, by rw [he.1]⟩
      · exact .inr hx
    · rintro (⟨rfl, rfl⟩ | hx)
      · exact .inl ⟨user, rfl, rfl⟩
      · exact .inr hx
  constructor
  · intro y c hl
    simp only [Store.look_setEx, pwdResetKey_inj] at hl
    by_cases hy : y = x
    · simp only [hy, if_true] at hl
      split at hl
      · obtain rfl := Option.some.inj hl
        exact ⟨user.id, rfl, (hcons _ _).mpr (.inl ⟨hy, rfl⟩)⟩
      · cases hl
    · simp only [hy, if_false] at hl
      obtain ⟨u, hv, hx⟩ := ht.cells y c hl
      exact ⟨u, hv, (hcons _ _).mpr (.inr hx)⟩
  · intro y u v hu hv
    rcases (hcons _ _).mp hu with ⟨rfl, rfl⟩ | hu <;> rcases (hcons _ _).mp hv with ⟨he, rfl⟩ | hv
    · rfl
    · exact absurd hv (hnew v)
    · exact absurd (he ▸ hu) (hnew u)
    · exact ht.unique y u v hu hv
  · intro y u hy
    rcases (hcons _ _).mp hy with ⟨rfl, -⟩ | hy
    · exact ⟨_, List.mem_cons_self .., hdraw⟩
    · obtain ⟨s, hs, hd⟩ := ht.drawn y u hy
      exact ⟨s, List.mem_cons_of_mem _ hs, hd⟩

theorem ResetTracks.request (ht : ResetTracks h) (r : Request)
    (hfresh : Fresh (h.log.reverse.map (·.request) ++ [r])) :
    ResetTracks (h.step env (.request r)) := by
  have heff := serve_effect env h.world r
  rw [Run.step_request]
  generalize (serve env h.world r).1 = outcome at heff ⊢
  generalize (serve env h.world r).2 = w at heff ⊢
  cases heff with
  | refused r e hr => exact ht.of_quiet rfl (fun x c hl => hl) (by simp)
  | registered email password fullName d hnone haccepts =>
    exact ht.of_quiet rfl (fun x c hl => by simpa using hl) (by simp)
  | verified token userId user htext huser =>
    exact ht.of_quiet rfl (fun x c hl => by simpa using hl) (by simp)
  | attemptFailed email password d redis hlock huser hfailed =>
    exact ht.of_quiet rfl (fun x c hl => by
      rwa [failedAttempt_look hfailed _ (by simp) (by simp)] at hl) (by simp)
  | loggedIn email password d user hlock huser hverified =>
    exact ht.of_quiet rfl (fun x c hl => by simpa [World.recordToken] using hl) (by simp)
  | unknownEmail email token hnone => exact ht.of_quiet rfl (fun x c hl => hl) (by simp)
  | resetRequested email token user huser =>
    exact ht.of_reset_requested _ hfresh (List.mem_singleton_self _)
  | reset token newPassword salt userId user htext huser =>
    exact ht.of_quiet rfl (fun x c hl => by
      simp [World.revokeAll] at hl
      exact hl.2) (by simp)
  | refreshed token d p u hclaims hsub =>
    exact ht.of_quiet rfl (fun x c hl => by simpa [World.recordToken] using hl) (by simp)
  | loggedOut token p u hclaims hsub =>
    exact ht.of_quiet rfl (fun x c hl => by simpa using hl) (by simp)
  | alreadyLoggedOut token hclaims => exact ht.of_quiet rfl (fun x c hl => hl) (by simp)
  | malformedSubject r token p hclaims hsub =>
    exact ht.of_quiet rfl (fun x c hl => by simpa using hl) (by simp)

theorem Tracks.request (ht : Tracks env h) (hr : ResetTracks h) (r : Request)
    (hfresh : Fresh (h.log.reverse.map (·.request) ++ [r])) :
    Tracks env (h.step env (.request r)) := by
  have heff := serve_effect env h.world r
  rw [Run.step_request]
  generalize (serve env h.world r).1 = outcome at heff ⊢
  generalize (serve env h.world r).2 = w at heff ⊢
  cases heff with
  | refused r e hlogout =>
    refine ht.of_kept (.of_quiet ht rfl rfl (fun j => rfl) (fun u => rfl) ?_ ?_) ?_
    · intros; simp [Served.spends, hlogout]
    · intros; simp [Served.resets]
    · intros; simp [Served.returns]
  | registered email password fullName d hnone haccepts =>
    refine ht.of_kept (.of_quiet ht rfl rfl ?_ (fun u => rfl) ?_ ?_) ?_
    · intros; simp
    · intros; simp [Served.spends]
    · intros; simp [Served.resets]
    · intros; simp [Served.returns]
  | verified token userId user htext huser =>
    refine ht.of_kept (.of_quiet ht rfl rfl ?_ ?_ ?_ ?_) ?_
    · intros; simp
    · intros; simp
    · intros; simp [Served.spends]
    · intros; simp [Served.resets]
    · intros; simp [Served.returns]
  | attemptFailed email password d redis hlock huser hfailed =>
    refine ht.of_kept (.of_quiet ht rfl rfl ?_ ?_ ?_ ?_) ?_
    · intros; exact failedAttempt_look hfailed _ (by simp) (by simp)
    · intros; exact failedAttempt_sets hfailed (by simp)
    · intros; simp [Served.spends]
    · intros; simp [Served.resets]
    · intros; simp [Served.returns]
  | loggedIn email password d user hlock huser hverified =>
    refine ht.of_issue (d := d) (u := user.id)
      (s := ⟨h.world.now, .login email password d, _⟩)
      (w := { h.world with redis := (h.world.redis.delete h.world.now
        {loginAttemptsKey (env.lower email), loginLockKey (env.lower email)}).2 })
      (.of_quiet ht rfl rfl ?_ ?_ ?_ ?_) rfl rfl ?_ ?_
    · intros; simp
    · intros; simp
    · intros; simp [Served.spends]
    · intros; simp [Served.resets]
    · simp [Request.jtis]
    · intro s hs j hj
      exact hfresh.jti_new hs hj (by simp [Request.jtis])
  | unknownEmail email token hnone =>
    refine ht.of_kept (.of_quiet ht rfl rfl (fun j => rfl) (fun u => rfl) ?_ ?_) ?_
    · intros; simp [Served.spends]
    · intros; simp [Served.resets]
    · intros; simp [Served.returns]
  | resetRequested email token user huser =>
    refine ht.of_kept (.of_quiet ht rfl rfl ?_ (fun u => rfl) ?_ ?_) ?_
    · intros; simp
    · intros; simp [Served.spends]
    · intros; simp [Served.resets]
    · intros; simp [Served.returns]
  | reset token newPassword salt userId user htext huser =>
    obtain rfl := World.id_of_userById huser
    obtain ⟨c, hget, hc⟩ := Option.map_eq_some_iff.mp htext
    obtain ⟨dl, hl⟩ := Store.get_eq_some.mp hget
    obtain ⟨u, hu, hx⟩ := hr.cells _ _ hl
    have hid : u = user.id := by
      simp only at hu
      rw [hu, Value.str_text, UUID.str_inj] at hc
      exact hc
    subst hid
    refine ht.of_kept (.of_reset ht _ ?_ ?_) ?_
    · intros; simp [Served.spends]
    · intro v
      simp only [Served.resets, Request.resetPassword.injEq, Except.ok.injEq]
      constructor
      · rintro ⟨x, _, _, _, ⟨rfl, -⟩, -, hv⟩
        exact hr.unique _ _ _ hv hx
      · rintro rfl
        exact ⟨_, _, _, _, ⟨rfl, rfl, rfl⟩, rfl, hx⟩
    · intros; simp [Served.returns]
  | refreshed token d p u hclaims hsub =>
    obtain ⟨v, t, hv, -⟩ := (acceptedClaims_eq_some ht).mp hclaims
    obtain rfl := UUID.str_inj.mp (hsub.symm.trans hv.sub)
    refine ht.of_issue (d := d) (s := ⟨h.world.now, .refreshAccessToken token d, _⟩)
      (.of_spend ht hv ?_ ?_) rfl rfl ?_ ?_
    · intro T; simp [Served.spends, eq_comm]
    · intros; simp [Served.resets]
    · simp [Request.jtis]
    · intro s hs j hj
      exact hfresh.jti_new hs hj (by simp [Request.jtis])
  | loggedOut token p u hclaims hsub =>
    obtain ⟨v, hv, -⟩ := (refreshClaims_eq_some ht).mp hclaims
    obtain rfl := UUID.str_inj.mp (hsub.symm.trans hv.sub)
    refine ht.of_kept (.of_spend ht hv ?_ ?_) ?_
    · intro T; simp [Served.spends, eq_comm]
    · intros; simp [Served.resets]
    · intros; simp [Served.returns]
  | alreadyLoggedOut token hclaims =>
    refine ht.of_kept (.of_quiet ht rfl rfl (fun j => rfl) (fun u => rfl) ?_ ?_) ?_
    · intro T p u hT hexp hs
      simp only [Served.spends, Request.logout.injEq, reduceCtorEq, false_and, exists_false,
        false_or] at hs
      subst hs
      rw [(refreshClaims_eq_some ht).mpr ⟨u, hT, hexp⟩] at hclaims
      cases hclaims
    · intros; simp [Served.resets]
    · intros; simp [Served.returns]
  | malformedSubject r token p hclaims hsub =>
    obtain ⟨v, hv, -⟩ := (refreshClaims_eq_some ht).mp hclaims
    rw [hv.sub, UUID.parse_str] at hsub
    cases hsub

/-- The store and the log agree at the end of every run with fresh draws. -/
theorem bothTrack_after (env : Env) (now : Nat) (users : List User) (events : List Event)
    (hfresh : Fresh (events.flatMap Event.requests)) :
    Tracks env ((Run.start now users).after env events) ∧
      ResetTracks ((Run.start now users).after env events) := by
  apply Run.after_induction (P := fun h => Tracks env h ∧ ResetTracks h)
  · exact ⟨.start env now users, .start now users⟩
  · simpa [Run.start] using hfresh
  · intro h n hP
    exact ⟨hP.1.wait n, hP.2.wait n⟩
  · intro h r hP hr
    exact ⟨hP.1.request hP.2 r hr, hP.2.request r hr⟩

theorem tracks_after (env : Env) (now : Nat) (users : List User) (events : List Event)
    (hfresh : Fresh (events.flatMap Event.requests)) :
    Tracks env ((Run.start now users).after env events) :=
  (bothTrack_after env now users events hfresh).1

/-! ## The lifetime -/

/-- What the log says is what the store decides. -/
theorem Tracks.usable_iff (ht : Tracks env h) {T : String} :
    Usable env h T ↔ ∃ p, h.world.acceptedClaims env T = some p := by
  constructor
  · rintro ⟨p, u, t, hd, hsub, ho, hexp⟩
    obtain ⟨s, hs, hret, rfl⟩ := ho.returned_in
    obtain ⟨q, v, hr, hq⟩ := ht.expiry s hs T hret
    obtain rfl := Option.some.inj (hd.symm.trans hr.decodes)
    obtain rfl := UUID.str_inj.mp (hsub.symm.trans hr.sub)
    exact ⟨p, (acceptedClaims_eq_some ht).mpr ⟨u, s.time, hr, hq ▸ hexp, ho⟩⟩
  · rintro ⟨p, hp⟩
    obtain ⟨u, t, hr, hexp, ho⟩ := (acceptedClaims_eq_some ht).mp hp
    obtain ⟨s, hs, hret, rfl⟩ := ho.returned_in
    obtain ⟨q, v, hr', hq⟩ := ht.expiry s hs T hret
    obtain ⟨rfl, rfl⟩ := hr.user_eq hr'
    exact ⟨p, u, s.time, hr.decodes, hr.sub, ho, hq ▸ hexp⟩

/-- At the end of every serial run, `refresh_access_token(T)` returns a token pair
exactly when the log says that `T` is usable; otherwise it raises
`InvalidTokenError` and changes nothing. -/
theorem refresh_lifetime (env : Env) (now : Nat) (users : List User) (events : List Event)
    (hfresh : Fresh (events.flatMap Event.requests)) (T : String) (d : IssueDraws) :
    let h := (Run.start now users).after env events
    let served := serve env h.world (.refreshAccessToken T d)
    ((∃ a r, served.1 = .ok (.tokenPair a r)) ↔ Usable env h T) ∧
    (¬ Usable env h T →
      served = (.error (.invalidTokenError refreshTokenMessage), h.world)) := by
  intro h served
  have ht : Tracks env h := tracks_after env now users events hfresh
  rw [ht.usable_iff]
  have hserved : served = serve env h.world (.refreshAccessToken T d) := rfl
  rw [serve_refreshAccessToken] at hserved
  cases hc : h.world.acceptedClaims env T with
  | none =>
    simp only [hc] at hserved
    simp [hserved]
  | some p =>
    obtain ⟨u, t, hr, -⟩ := (acceptedClaims_eq_some ht).mp hc
    simp only [hc, hr.sub, UUID.parse_str] at hserved
    simp [hserved]

/-- The token of a login is usable a minute later, a reset request notwithstanding. -/
theorem refresh_lifetime_login :
    let events : List Event := [.request (.login "Ada@example.com" "correct horse" (plainDraws .one)),
      .wait 60, .request (.requestPasswordReset "ada@example.com" "x")]
    Usable plainEnv ((Run.start 1000 [ada]).after plainEnv events)
      (plainEnv.encode (adaClaims .one)) := by
  intro events
  have h := refresh_lifetime plainEnv 1000 [ada] events (by decide) (plainEnv.encode (adaClaims .one))
    (plainDraws .two)
  apply h.1.mp
  have hissued : plainEnv.encode (adaClaims .one) ∈
      ((Run.start 1000 [ada]).after plainEnv events).world.issued :=
    List.mem_cons_of_mem _ (List.mem_cons_self ..)
  have haccepted : ((Run.start 1000 [ada]).after plainEnv events).world.acceptedClaims plainEnv
      (plainEnv.encode (adaClaims .one)) = some (adaClaims .one) :=
    acceptedClaims_encode plainEnv hissued (by decide) rfl (by decide)
  rw [serve_refreshAccessToken, haccepted]
  exact ⟨_, _, rfl⟩

end Run

end TaskMgtApp.Auth
