import TaskMgtApp.Auth.AccessLifetime

/-!
# What a reset leaves of the sessions before it

A reset revokes the refresh tokens that the index of the account lists. The index lists all
of them (`TokensListed`), so a session that is there after the reset began with a login
after it; of the sessions before it only access tokens are left, until their time is up.
-/
namespace TaskMgtApp.Auth

open TaskMgtApp.Common
open TaskMgtApp.Lib.ExpiringStore

/-- The index lists every key of a refresh token, no two tokens share a `jti`, and the log
is about the past. -/
structure TokensListed (env : Env) (t : Trace) : Prop where
  listed : ∀ j c (u : UUID), t.world.redis.look t.world.now (refreshTokenKey j) = some c →
    c.value = .text u.str → j ∈ t.world.redis.sets (userTokensKey u)
  apart : ∀ a T u p b S v q, IssuedTo env t.log a T u → IssuedTo env t.log b S v →
    env.decode T = some p → env.decode S = some q → p.jti = q.jti → T = S
  past : ∀ e ∈ t.log, e.before.now ≤ t.world.now

/-- The log is `new` after `old`, and the sessions of `u` that are left began in `new`. -/
structure SessionsSince (env : Env) (old : List Entry) (u : UUID) (t : Trace) (new : List Entry) :
    Prop where
  log : t.log = new ++ old
  keys : ∀ j c, t.world.redis.look t.world.now (refreshTokenKey j) = some c →
    c.value = .text u.str → Minted env new j u
  pairs : ∀ e ∈ new, ∀ a T, e.outcome = .ok (.tokenPair a T) → PairFor env u a T →
    IssuedTo env new a T u

section Listed
variable {env : Env} {t : Trace} {r : Request} {o : Except Exc Reply} {w w' : World}

theorem IssuedTo.of_cons {e : Entry} {log : List Entry} {a T : String} {u : UUID}
    (h : IssuedTo env (e :: log) a T u) : IssuedTo env log a T u ∨ e.outcome = .ok (.tokenPair a T) := by
  cases h with
  | login hr ho huser => exact .inr ho
  | refresh hr ho hu => exact .inr ho
  | earlier h => exact .inl h

theorem IssuedTo.append {new : List Entry} {a T : String} {u : UUID} (h : IssuedTo env new a T u)
    (old : List Entry) : IssuedTo env (new ++ old) a T u := by
  induction h with
  | login hr ho huser => exact .login hr ho huser
  | refresh hr ho hu ih => exact .refresh hr ho ih
  | earlier h ih => exact .earlier ih

/-- A key of a refresh token and its entry in the index go together. -/
theorem Effect.keeps_listed (h : Effect env w r o w') {j : String} {c : Cell Value} {u : UUID}
    (hc : w'.redis.look w.now (refreshTokenKey j) = some c) (hj : j ∈ w.redis.sets (userTokensKey u)) :
    j ∈ w'.redis.sets (userTokensKey u) := by
  cases h with
  | refused | unknownEmail | alreadyLoggedOut => exact hj
  | registered | resetRequested => exact hj
  | verified | malformedSubject => simpa using hj
  | attemptFailed email password d redis hlock huser hfailed =>
    rw [failedAttempt_sets hfailed ((userTokensKey_ne u).2.2.1 _)]
    exact hj
  | loggedIn email password d user =>
    rw [World.recordToken, Store.sets_sadd, Store.sets_setEx]
    split
    · rename_i hk
      obtain rfl := (userTokensKey_inj ..).mp hk
      exact Finset.mem_insert_of_mem (by simpa using hj)
    · simpa using hj
  | reset token newPassword salt userId user htext huser =>
    by_cases hu : u = user.id
    · subst hu
      simp [World.revokeAll, Store.smembers, hj] at hc
    · simpa [World.revokeAll, hu] using hj
  | refreshed token d p v hclaims hsub =>
    rcases look_recordToken hc with hold | ⟨hk, -⟩
    · have hne : j ≠ p.jti := by
        rintro rfl
        simp at hold
      rw [World.recordToken, Store.sets_sadd, Store.sets_setEx]
      by_cases hu : u = v
      · subst hu
        simp [hj, hne]
      · simpa [hu] using hj
    · obtain rfl := (refreshTokenKey_inj ..).mp hk
      rw [World.recordToken, Store.sets_sadd, Store.sets_setEx]
      by_cases hu : u = v
      · subst hu
        simp
      · simpa [hu] using hj
  | loggedOut token p v hclaims hsub =>
    have hne : j ≠ p.jti := by
      rintro rfl
      simp at hc
    by_cases hu : u = v
    · subst hu
      simp [hj, hne]
    · simpa [hu] using hj

/-- A new key of a refresh token is listed. -/
theorem Effect.lists_new (h : Effect env w r o w') {u : UUID} {d : IssueDraws}
    (ho : o = .ok (.tokenPair (w.tokenPair env u d).1 (w.tokenPair env u d).2)) :
    d.refreshJti.str ∈ w'.redis.sets (userTokensKey u) := by
  have hsame : ∀ {v : UUID} {d' : IssueDraws},
      (Except.ok (Reply.tokenPair (w.tokenPair env v d').1 (w.tokenPair env v d').2) :
        Except Exc Reply) = .ok (.tokenPair (w.tokenPair env u d).1 (w.tokenPair env u d).2) →
      v = u ∧ d'.refreshJti.str = d.refreshJti.str := by
    intro v d' heq
    obtain ⟨-, hT⟩ := Reply.tokenPair.inj (Except.ok.inj heq)
    have hclaims := congrArg env.decode hT
    simp only [World.tokenPair, env.decode_encode, Option.some.injEq, Claims.mk.injEq] at hclaims
    exact ⟨UUID.str_inj.mp hclaims.1, hclaims.2.2.2.2⟩
  cases h with
  | loggedIn | refreshed =>
    obtain ⟨rfl, hd⟩ := hsame ho
    rw [World.recordToken, Store.sets_sadd, if_pos rfl, ← hd]
    exact Finset.mem_insert_self ..
  | _ => cases ho

theorem TokensListed.request (h : TokensListed env t) (hledger : Ledger env t) (r : Request)
    (hfresh : Fresh (t.requests ++ [r])) : TokensListed env (t.step env (.request r)) := by
  have he := serve_effect env t.world r
  have hnow : (serve env t.world r).2.now = t.world.now := he.now
  refine ⟨fun j c u hc hu => ?_, ?_, fun e hmem => ?_⟩
  · change (serve env t.world r).2.redis.look (serve env t.world r).2.now _ = some c at hc
    rw [hnow] at hc
    rcases he.look_before hc with hold | hwrote
    · exact he.keeps_listed hc (h.listed j c u hold hu)
    · generalize hk : refreshTokenKey j = k at hwrote
      generalize ho : (serve env t.world r).1 = o at hwrote
      cases hwrote with
      | @refreshToken _ v d =>
        obtain rfl := (refreshTokenKey_inj ..).mp hk
        obtain rfl := UUID.str_inj.mp (Value.text.inj hu)
        exact he.lists_new ho
      | verification => exact absurd hk ((refreshTokenKey_ne j).1 _)
      | resetLink => exact absurd hk ((refreshTokenKey_ne j).2.2.2.1 _)
      | counter => exact absurd hk ((refreshTokenKey_ne j).2.2.1 _)
      | lock => exact absurd hk ((refreshTokenKey_ne j).2.1 _)
  · -- a token of the log against one of the new pair: its `jti` was drawn before
    have hnew : ∀ a T u p b S, IssuedTo env t.log a T u → env.decode T = some p →
        (serve env t.world r).1 = .ok (.tokenPair b S) → ∀ q, env.decode S = some q →
        p.jti ≠ q.jti := by
      intro a T u p b S hi hp ho q hq heq
      obtain ⟨v, d, -, hd, -, rfl⟩ := hledger.issues he ho
      rw [World.tokenPair, env.decode_encode] at hq
      obtain rfl := Option.some.inj hq
      obtain ⟨e, hmem, i, hi', hstr⟩ := hledger.drawn p.jti u ⟨a, T, p, hi, hp, rfl⟩
      exact hfresh.drawn_new hmem hi' hd (UUID.str_inj.mp (hstr.trans heq))
    intro a T u p b S v q hT hS hp hq heq
    rcases hT.of_cons with hT | hT <;> rcases hS.of_cons with hS | hS
    · exact h.apart a T u p b S v q hT hS hp hq heq
    · exact absurd heq (hnew a T u p b S hT hp hS q hq)
    · exact absurd heq.symm (hnew b S v q a T hS hq hT p hp)
    · exact (Reply.tokenPair.inj (Except.ok.inj (hT.symm.trans hS))).2
  · change e.before.now ≤ (serve env t.world r).2.now
    rw [hnow]
    rcases List.mem_cons.mp hmem with rfl | hmem
    · exact Nat.le_refl _
    · exact h.past e hmem

theorem TokensListed.step (h : TokensListed env t) (hledger : Ledger env t) (a : Action)
    (hfresh : Fresh (t.requests ++ a.requests)) : TokensListed env (t.step env a) := by
  cases a with
  | wait n =>
    exact ⟨fun j c u hc hu => h.listed j c u (Store.look_of_later (Nat.le_add_right ..) hc) hu,
      h.apart, fun e he => (h.past e he).trans (Nat.le_add_right ..)⟩
  | request r => exact h.request hledger r hfresh
  | setActive id isActive => exact ⟨h.listed, h.apart, h.past⟩
  | softDelete id => exact ⟨h.listed, h.apart, h.past⟩

theorem tokensListed_after (env : Env) (now : Nat) {users : List User} (husers : TableOk users)
    (actions : List Action) (hfresh : Fresh (actions.flatMap Action.requests)) :
    TokensListed env ((Trace.start now users).after env actions) := by
  refine ledger_induction husers hfresh ⟨?_, ?_, fun e he => by cases he⟩
    fun t a hledger _ h hf => h.step hledger a hf
  · intro j c u hc
    cases hc
  · intro a T u p b S v q hT
    cases hT

end Listed

/-! ## After a reset -/

section Since
variable {env : Env} {t : Trace} {old new : List Entry} {u : UUID}

/-- A refresh token of `u` that is accepted now was issued since. -/
theorem SessionsSince.of_accepted (h : SessionsSince env old u t new) (hledger : Ledger env t)
    (hlisted : TokensListed env t) {T : String} {p : Claims}
    (hclaims : t.world.acceptedClaims env T = some p) (hsub : p.sub = u.str) :
    ∃ a, IssuedTo env new a T u := by
  obtain ⟨hrefresh, htext⟩ := (acceptedClaims_eq_some_iff env t.world).mp hclaims
  obtain ⟨c, hc, hvalue⟩ := text_eq_some htext
  obtain ⟨v, hv, -⟩ := hledger.refreshKeys p.jti c hc
  rw [hv, Value.str_text, hsub] at hvalue
  obtain rfl := UUID.str_inj.mp hvalue
  obtain ⟨a, S, q, hi, hq, hjti⟩ := h.keys p.jti c hc hv
  obtain ⟨b, w, hT, -⟩ := hledger.issuedTo_of_refreshClaims hrefresh
  obtain rfl := hlisted.apart a S v q b T w p (h.log ▸ hi.append old) hT hq (issued_of_refreshClaims hrefresh).2.1 hjti
  exact ⟨a, hi⟩

/-- A pair for `u` that is returned now belongs to a session that began since. -/
theorem SessionsSince.issues (h : SessionsSince env old u t new) (hledger : Ledger env t)
    (hlisted : TokensListed env t) {r : Request} {o : Except Exc Reply} {w' : World}
    (he : Effect env t.world r o w') {a T : String} (ho : o = .ok (.tokenPair a T))
    (hfor : PairFor env u a T) : IssuedTo env (⟨t.world, r, o⟩ :: new) a T u := by
  cases he with
  | loggedIn email password d user hlock huser =>
    cases ho
    obtain rfl := hfor.user_eq (pairFor_tokenPair t.world user.id d)
    exact .login rfl rfl (Option.filter_eq_some_iff.mp huser).1
  | refreshed token d p v hclaims hsub =>
    cases ho
    obtain rfl := hfor.user_eq (pairFor_tokenPair t.world v d)
    obtain ⟨b, hb⟩ := h.of_accepted hledger hlisted hclaims hsub
    exact .refresh rfl rfl hb
  | _ => cases ho

theorem SessionsSince.request (h : SessionsSince env old u t new) (hledger : Ledger env t)
    (hlisted : TokensListed env t) (r : Request) :
    SessionsSince env old u (t.step env (.request r)) (⟨t.world, r, (serve env t.world r).1⟩ :: new) := by
  have he := serve_effect env t.world r
  have hnow : (serve env t.world r).2.now = t.world.now := he.now
  refine ⟨congrArg (List.cons _) h.log, fun j c hc hu => ?_, fun e hmem a T ho hfor => ?_⟩
  · change (serve env t.world r).2.redis.look (serve env t.world r).2.now _ = some c at hc
    rw [hnow] at hc
    rcases he.look_before hc with hold | hwrote
    · exact (h.keys j c hold hu).cons _
    · generalize hk : refreshTokenKey j = k at hwrote
      generalize ho : (serve env t.world r).1 = o at hwrote he
      cases hwrote with
      | @refreshToken _ v d =>
        obtain rfl := (refreshTokenKey_inj ..).mp hk
        obtain rfl := UUID.str_inj.mp (Value.text.inj hu)
        have hi := h.issues hledger hlisted he rfl (pairFor_tokenPair t.world v d)
        exact ⟨_, _, _, hi, env.decode_encode _, rfl⟩
      | verification => exact absurd hk ((refreshTokenKey_ne j).1 _)
      | resetLink => exact absurd hk ((refreshTokenKey_ne j).2.2.2.1 _)
      | counter => exact absurd hk ((refreshTokenKey_ne j).2.2.1 _)
      | lock => exact absurd hk ((refreshTokenKey_ne j).2.1 _)
  · rcases List.mem_cons.mp hmem with rfl | hmem
    · exact h.issues hledger hlisted he ho hfor
    · exact .earlier (h.pairs e hmem a T ho hfor)

/-- A reset leaves no session. -/
theorem SessionsSince.of_reset (hledger : Ledger env t) (honce : OneTimeTokens t.log)
    (hlisted : TokensListed env t) {x newPassword salt : String} (hx : ResetIssued t.log x u)
    {reply : Reply} (hok : (serve env t.world (.resetPassword x newPassword salt)).1 = .ok reply) :
    let t' := t.step env (.request (.resetPassword x newPassword salt))
    SessionsSince env t'.log u t' [] := by
  intro t'
  have hnow : t'.world.now = t.world.now :=
    (serve_effect env t.world (.resetPassword x newPassword salt)).now
  refine ⟨rfl, fun j c hc hu => ?_, fun e he => by cases he⟩
  change (serve env t.world (.resetPassword x newPassword salt)).2.redis.look t'.world.now _ = _ at hc
  rw [hnow] at hc
  have he := serve_effect env t.world (.resetPassword x newPassword salt)
  generalize (serve env t.world (.resetPassword x newPassword salt)).1 = o at he hok
  generalize (serve env t.world (.resetPassword x newPassword salt)).2 = w' at he hc
  cases he with
  | refused => cases hok
  | malformedSubject => cases hok
  | reset _ _ _ userId user htext huser =>
    obtain rfl := World.id_of_userById huser
    obtain ⟨-, -, -, hx'⟩ := hledger.resetCell htext
    obtain rfl : u = user.id := (honce.unique false false x _ _ hx hx').2
    have hold := look_of_delete t.world.now (look_of_delete t.world.now (look_of_delete t.world.now hc))
    have hlist := hlisted.listed j c user.id hold hu
    simp [World.revokeAll, Store.smembers, hlist] at hc

theorem SessionsSince.after (h : SessionsSince env old u t new) (hledger : Ledger env t)
    (hlisted : TokensListed env t) (actions : List Action)
    (hfresh : Fresh (t.requests ++ actions.flatMap Action.requests)) :
    ∃ newer, SessionsSince env old u (t.after env actions) newer := by
  have hall : Ledger env (t.after env actions) ∧ TokensListed env (t.after env actions) ∧
      ∃ newer, SessionsSince env old u (t.after env actions) newer := by
    refine Trace.after_induction (P := fun t => Ledger env t ∧ TokensListed env t ∧
      ∃ newer, SessionsSince env old u t newer) ⟨hledger, hlisted, new, h⟩ hfresh ?_
    rintro t a ⟨hledger, hlisted, newer, h⟩ hf
    refine ⟨hledger.step a hf, hlisted.step hledger a hf, ?_⟩
    cases a with
    | wait n =>
      exact ⟨newer, h.log, fun j c hc hu =>
        h.keys j c (Store.look_of_later (Nat.le_add_right ..) hc) hu, h.pairs⟩
    | request r => exact ⟨_, h.request hledger hlisted r⟩
    | setActive id isActive => exact ⟨newer, h.log, h.keys, h.pairs⟩
    | softDelete id => exact ⟨newer, h.log, h.keys, h.pairs⟩
  exact hall.2.2

end Since

/-- After a reset of the password of `u`, whatever happens: a refresh token of `u` is accepted
only if its session began with a login after the reset, and an access token of `u` only if
its session did or less than the lifetime of an access token has passed since the reset. -/
theorem reset_ends_sessions (env : Env) (now : Nat) {users : List User} (husers : TableOk users)
    (before after : List Action) (x newPassword salt : String) (u : UUID) (reply : Reply)
    (hfresh : Fresh ((before ++ .request (.resetPassword x newPassword salt) :: after).flatMap
      Action.requests)) :
    let t₀ := (Trace.start now users).after env before
    let t := t₀.after env (.request (.resetPassword x newPassword salt) :: after)
    ResetIssued t₀.log x u → (serve env t₀.world (.resetPassword x newPassword salt)).1 = .ok reply →
    ∃ since reset, t.log = since ++ reset :: t₀.log ∧ reset.before = t₀.world ∧
      (∀ a T d pair, IssuedTo env t.log a T u →
        (serve env t.world (.refreshAccessToken T d)).1 = .ok pair → ∃ b, IssuedTo env since b T u) ∧
      ∀ token user, t.world.currentUser env token = .ok user → user.id = u →
        (∃ T, IssuedTo env since token T u) ∨
          t.world.now < t₀.world.now + env.settings.accessTokenExpireMinutes * 60 := by
  intro t₀ t hx hok
  have hall : t = (Trace.start now users).after env
      (before ++ .request (.resetPassword x newPassword salt) :: after) :=
    (List.foldl_append ..).symm
  have hbefore : Fresh (before.flatMap Action.requests) := by
    rw [List.flatMap_append] at hfresh
    exact hfresh.of_append
  have hrequests : t₀.requests = before.flatMap Action.requests :=
    Trace.requests_start_after env now users before
  have hreset : Fresh (t₀.requests ++ [.resetPassword x newPassword salt]) := by
    rw [List.flatMap_append, List.flatMap_cons, ← List.append_assoc] at hfresh
    rw [hrequests]
    exact hfresh.of_append
  have hledger₀ := ledger_after env now husers before hbefore
  have honce₀ := oneTimeTokens_after env now users before hbefore
  have hlisted₀ := tokensListed_after env now husers before hbefore
  have hstart := SessionsSince.of_reset hledger₀ honce₀ hlisted₀ hx hok
  obtain ⟨since, hsince⟩ := hstart.after
    (hledger₀.step (.request (.resetPassword x newPassword salt)) hreset)
    (hlisted₀.step hledger₀ (.request (.resetPassword x newPassword salt)) hreset) after (by
      rw [Trace.requests_step, hrequests]
      simpa [Action.requests] using hfresh)
  have hledger : Ledger env t := hall ▸ ledger_after env now husers _ hfresh
  have hlisted : TokensListed env t := hall ▸ tokensListed_after env now husers _ hfresh
  have hreturned : PairsReturned env t := hall ▸ pairsReturned_after env now husers _ hfresh
  refine ⟨since, _, hsince.log, rfl, fun a T d pair hi hpair => ?_, fun token user huser hid => ?_⟩
  · rw [serve_refreshAccessToken] at hpair
    cases hclaims : t.world.acceptedClaims env T with
    | none =>
      rw [hclaims] at hpair
      cases hpair
    | some p =>
      refine hsince.of_accepted hledger hlisted hclaims ?_
      have hp := ((acceptedClaims_eq_some_iff env t.world).mp hclaims).1
      exact (hledger.refresh_of_pair hi (.inr rfl) hp).2
  · subst hid
    obtain ⟨n, ⟨T, hi, e, he, ho, rfl⟩, hlt⟩ := ((hledger.currentUser_iff hreturned).1 user).mp huser |>.1
    have hsplit : t.log = since ++ _ :: t₀.log := hsince.log
    rw [hsplit] at he
    rcases List.mem_append.mp he with he | he
    · exact .inl ⟨T, hsince.pairs e he token T ho (hledger.pairs _ _ _ hi)⟩
    · have hpast : e.before.now ≤ t₀.world.now := by
        rcases List.mem_cons.mp he with rfl | he
        · exact Nat.le_refl _
        · exact hlisted₀.past e he
      exact .inr (by omega)

/-- Ada resets her password and logs in with the new one, an old session beside the new. -/
theorem reset_ends_sessions_login :
    let t₀ := (Trace.start 1000 []).after plainEnv adaJoins
    let t := t₀.after plainEnv [.request (.resetPassword "x1" "battery staple" "s1"), .wait 900,
      .request (.login "ada@example.com" "battery staple" (plainDraws .two))]
    ∃ since reset, t.log = since ++ reset :: t₀.log ∧ reset.before = t₀.world ∧
      (∀ a T d pair, IssuedTo plainEnv t.log a T ada.id →
        (serve plainEnv t.world (.refreshAccessToken T d)).1 = .ok pair →
          ∃ b, IssuedTo plainEnv since b T ada.id) ∧
      ∀ token user, t.world.currentUser plainEnv token = .ok user → user.id = ada.id →
        (∃ T, IssuedTo plainEnv since token T ada.id) ∨
          t.world.now < t₀.world.now + plainEnv.settings.accessTokenExpireMinutes * 60 := by
  have hissued : ResetIssued ((Trace.start 1000 []).after plainEnv adaJoins).log "x1" ada.id := by
    have hmem : Except.ok (Reply.resetRequested (some (adaVerified, "x1"))) ∈
        ((Trace.start 1000 []).after plainEnv adaJoins).log.map Entry.outcome := by decide +kernel
    obtain ⟨e, he, ho⟩ := List.mem_map.mp hmem
    exact ⟨e, he, adaVerified, ho, rfl⟩
  exact reset_ends_sessions plainEnv 1000 tableOk_nil adaJoins
    [.wait 900, .request (.login "ada@example.com" "battery staple" (plainDraws .two))] "x1"
    "battery staple" "s1" ada.id .none (by decide) hissued (by decide +kernel)

end TaskMgtApp.Auth
