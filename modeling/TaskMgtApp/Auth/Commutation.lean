import TaskMgtApp.Auth.Locality

/-!
# Requests for different accounts commute

Every key of the service is kept for one account, or its name is a draw of the request
that writes it. Requests for different accounts therefore neither see nor overwrite what
the other has written, in whichever order they are served.
-/
namespace TaskMgtApp.Auth

open TaskMgtApp.Common
open TaskMgtApp.Lib.ExpiringStore

/-! ## Whose key it is -/

/-- The keys kept for the account `u` with the email `e`: its counter, its lock, its
one-time tokens, its refresh tokens and the set of these. -/
inductive KeptFor (env : Env) (log : List Entry) (e : String) (u : UUID) : String → Prop
  | attempts : KeptFor env log e u (loginAttemptsKey e)
  | lock : KeptFor env log e u (loginLockKey e)
  | verification {x : String} (h : Registered log x u) : KeptFor env log e u (emailVerifyKey x)
  | resetLink {x : String} (h : ResetIssued log x u) : KeptFor env log e u (pwdResetKey x)
  | refreshToken {j : String} (h : Minted env log j u) : KeptFor env log e u (refreshTokenKey j)
  | index : KeptFor env log e u (userTokensKey u)

/-- The keys a request names with its own draws. -/
inductive Request.Draws (r : Request) : String → Prop
  | verification {x : String} (h : x ∈ r.oneTimeTokens) : Draws r (emailVerifyKey x)
  | resetLink {x : String} (h : x ∈ r.oneTimeTokens) : Draws r (pwdResetKey x)
  | refreshToken {j : UUID} (h : j ∈ r.jtis) : Draws r (refreshTokenKey j.str)

/-- Every token that was issued has left the app. -/
def HandedOut (env : Env) (t : Trace) : Prop :=
  ∀ a b u, IssuedTo env t.log a b u → a ∈ t.world.issued ∧ b ∈ t.world.issued

section Keys
variable {env : Env} {t : Trace} {r f g : Request} {e e' : String} {u u' : UUID} {k : String}

theorem keptFor_attempts : KeptFor env t.log e u (loginAttemptsKey e') ↔ e = e' := by
  constructor
  · intro h
    generalize hk : loginAttemptsKey e' = k at h
    cases h with
    | attempts => exact ((loginAttemptsKey_inj _ _).mp hk).symm
    | _ => simp at hk
  · rintro rfl
    exact .attempts

theorem keptFor_lock : KeptFor env t.log e u (loginLockKey e') ↔ e = e' := by
  constructor
  · intro h
    generalize hk : loginLockKey e' = k at h
    cases h with
    | lock => exact ((loginLockKey_inj _ _).mp hk).symm
    | _ => simp at hk
  · rintro rfl
    exact .lock

theorem keptFor_verification {x : String} :
    KeptFor env t.log e u (emailVerifyKey x) ↔ Registered t.log x u := by
  constructor
  · intro h
    generalize hk : emailVerifyKey x = k at h
    cases h with
    | verification hx => exact (emailVerifyKey_inj _ _).mp hk ▸ hx
    | _ => simp at hk
  · exact .verification

theorem keptFor_resetLink {x : String} :
    KeptFor env t.log e u (pwdResetKey x) ↔ ResetIssued t.log x u := by
  constructor
  · intro h
    generalize hk : pwdResetKey x = k at h
    cases h with
    | resetLink hx => exact (pwdResetKey_inj _ _).mp hk ▸ hx
    | _ => simp at hk
  · exact .resetLink

theorem keptFor_refreshToken {j : String} :
    KeptFor env t.log e u (refreshTokenKey j) ↔ Minted env t.log j u := by
  constructor
  · intro h
    generalize hk : refreshTokenKey j = k at h
    cases h with
    | refreshToken hj => exact (refreshTokenKey_inj _ _).mp hk ▸ hj
    | _ => simp at hk
  · exact .refreshToken

theorem keptFor_index : KeptFor env t.log e u (userTokensKey u') ↔ u = u' := by
  constructor
  · intro h
    generalize hk : userTokensKey u' = k at h
    cases h with
    | index => exact ((userTokensKey_inj _ _).mp hk).symm
    | _ => simp at hk
  · rintro rfl
    exact .index

/-- No key is kept for two accounts. -/
theorem KeptFor.disjoint (hledger : Ledger env t) (honce : OneTimeTokens t.log) (he : e ≠ e')
    (hu : u ≠ u') (h : KeptFor env t.log e u k) : ¬ KeptFor env t.log e' u' k := by
  intro h'
  cases h with
  | attempts => exact he (keptFor_attempts.mp h').symm
  | lock => exact he (keptFor_lock.mp h').symm
  | @verification x hx => exact hu (honce.unique true true x u u' hx (keptFor_verification.mp h')).2
  | @resetLink x hx => exact hu (honce.unique false false x u u' hx (keptFor_resetLink.mp h')).2
  | @refreshToken j hj => exact hu (hledger.owner j u u' hj (keptFor_refreshToken.mp h'))
  | index => exact hu (keptFor_index.mp h').symm

/-- What is kept for an account was drawn before. -/
theorem KeptFor.not_draws (hledger : Ledger env t) (honce : OneTimeTokens t.log)
    (hfresh : Fresh (t.requests ++ [r])) (h : KeptFor env t.log e u k) : ¬ r.Draws k := by
  have honetime : ∀ {b : Bool} {x : String}, OneTime t.log b x u → x ∉ r.oneTimeTokens := by
    intro b x hx hr
    obtain ⟨entry, hmem, hdrawn⟩ := honce.drawn b x u hx
    exact hfresh.oneTimeToken_new hmem hdrawn hr rfl
  intro hr
  cases hr with
  | verification hx => exact honetime (b := true) (keptFor_verification.mp h) hx
  | resetLink hx => exact honetime (b := false) (keptFor_resetLink.mp h) hx
  | refreshToken hj =>
    obtain ⟨entry, hmem, i, hi, hij⟩ := hledger.drawn _ u (keptFor_refreshToken.mp h)
    exact hfresh.drawn_new hmem hi hj (UUID.str_inj.mp hij)

theorem Fresh.perm {rs rs' : List Request} (h : Fresh rs) (hp : rs.Perm rs') : Fresh rs' :=
  ⟨(hp.flatMap_right _).nodup_iff.mp h.1, (hp.flatMap_right _).nodup_iff.mp h.2⟩

theorem Fresh.swap {rs : List Request} (h : Fresh (rs ++ [f, g])) : Fresh (rs ++ [g, f]) :=
  h.perm ((List.Perm.swap g f []).append_left rs)

theorem Fresh.first {rs : List Request} (h : Fresh (rs ++ [f, g])) : Fresh (rs ++ [f]) :=
  Fresh.of_append (b := [g]) (by simpa using h)

/-- Two requests draw different names. -/
theorem Request.Draws.disjoint {rs : List Request} (hfresh : Fresh (rs ++ [f, g]))
    (h : f.Draws k) : ¬ g.Draws k := by
  have hjtis : f.jtis.Disjoint g.jtis := by
    have hn := hfresh.1
    simp only [List.flatMap_append, List.flatMap_cons, List.flatMap_nil, List.append_nil] at hn
    exact List.disjoint_of_nodup_append (List.nodup_append.mp hn).2.1
  have htokens : f.oneTimeTokens.Disjoint g.oneTimeTokens := by
    have hn := hfresh.2
    simp only [List.flatMap_append, List.flatMap_cons, List.flatMap_nil, List.append_nil] at hn
    exact List.disjoint_of_nodup_append (List.nodup_append.mp hn).2.1
  intro h'
  cases h with
  | @verification x hx =>
    generalize hk : emailVerifyKey x = k at h'
    cases h' with
    | verification hx' => exact htokens hx ((emailVerifyKey_inj _ _).mp hk ▸ hx')
    | _ => simp at hk
  | @resetLink x hx =>
    generalize hk : pwdResetKey x = k at h'
    cases h' with
    | resetLink hx' => exact htokens hx ((pwdResetKey_inj _ _).mp hk ▸ hx')
    | _ => simp at hk
  | @refreshToken j hj =>
    generalize hk : refreshTokenKey j.str = k at h'
    cases h' with
    | refreshToken hj' =>
      exact hjtis hj (UUID.str_inj.mp ((refreshTokenKey_inj _ _).mp hk) ▸ hj')
    | _ => simp at hk

/-- A presented token was issued. -/
theorem Concerns.presented (hc : Concerns env t e u r) {T : String}
    (hr : (∃ d, r = .refreshAccessToken T d) ∨ r = .logout T) :
    ∃ a b, IssuedTo env t.log a b u ∧ (T = a ∨ T = b) := by
  rcases hr with ⟨d, rfl⟩ | rfl
  · cases hc with
    | refreshAccessToken hT hpair hemail => exact ⟨_, _, hT, hpair⟩
  · cases hc with
    | logout hT hpair hemail => exact ⟨_, _, hT, hpair⟩

/-- A request touches keys kept for its own account, and keys it names itself. -/
theorem Concerns.touches (hc : Concerns env t e u r) (hledger : Ledger env t)
    (honce : OneTimeTokens t.log) (hlower : ∀ s, env.lower (env.lower s) = env.lower s)
    (hk : r.Touches env t.world k) : KeptFor env t.log e u k ∨ r.Draws k := by
  have hreset : ∀ {x newPassword salt : String} {v : UUID},
      Concerns env t e u (.resetPassword x newPassword salt) →
      t.world.text (pwdResetKey x) = some v.str → v = u := by
    intro x newPassword salt v hc htext
    cases hc with
    | resetPassword hx hemail =>
      obtain ⟨-, -, -, hx'⟩ := hledger.resetCell htext
      exact (honce.unique false false x v u hx' hx).2
  have hpair : ∀ {T : String} {p : Claims}, (∃ d, r = .refreshAccessToken T d) ∨ r = .logout T →
      t.world.refreshClaims env T = some p → Minted env t.log p.jti u ∧ p.sub = u.str := by
    intro T p hr hp
    obtain ⟨a, b, hi, hab⟩ := hc.presented hr
    obtain ⟨rfl, hsub⟩ := hledger.refresh_of_pair hi hab hp
    exact ⟨⟨a, T, p, hi, (issued_of_refreshClaims hp).2.1, rfl⟩, hsub⟩
  cases hk with
  | register => exact .inr (.verification (by simp [Request.oneTimeTokens]))
  | verifyEmail =>
    cases hc with
    | verifyEmail hx hemail => exact .inl (.verification hx)
  | attempts =>
    cases hc with
    | login hemail hid => exact .inl (hemail ▸ .attempts)
  | lock =>
    cases hc with
    | login hemail hid => exact .inl (hemail ▸ .lock)
  | loginToken => exact .inr (.refreshToken (by simp [Request.jtis]))
  | @loginIndex email password d user huser =>
    cases hc with
    | login hemail hid =>
      have hfound := List.find?_some huser
      simp only [Bool.and_eq_true, Option.isNone_iff_eq_none, beq_iff_eq, hlower] at hfound
      obtain rfl := hid user (List.mem_of_find?_eq_some huser) hfound.1 (hfound.2.trans hemail)
      exact .inl .index
  | requestReset => exact .inr (.resetLink (by simp [Request.oneTimeTokens]))
  | reset =>
    cases hc with
    | resetPassword hx hemail => exact .inl (.resetLink hx)
  | revoked htext hj =>
    obtain rfl := hreset hc htext
    obtain ⟨v, hv, hminted⟩ := hledger.members _ _ hj
    obtain rfl := (userTokensKey_inj _ _).mp hv
    exact .inl (.refreshToken hminted)
  | revokedIndex htext =>
    obtain rfl := hreset hc htext
    exact .inl .index
  | refresh hclaims => exact .inl (.refreshToken (hpair (.inl ⟨_, rfl⟩) hclaims).1)
  | refreshIndex hclaims hsub =>
    obtain rfl := UUID.str_inj.mp (hsub.symm.trans (hpair (.inl ⟨_, rfl⟩) hclaims).2)
    exact .inl .index
  | refreshToken => exact .inr (.refreshToken (by simp [Request.jtis]))
  | logout hclaims => exact .inl (.refreshToken (hpair (.inr rfl) hclaims).1)
  | logoutIndex hclaims hsub =>
    obtain rfl := UUID.str_inj.mp (hsub.symm.trans (hpair (.inr rfl) hclaims).2)
    exact .inl .index

end Keys

/-! ## What has been issued has left the app -/

section HandedOut
variable {env : Env} {w w' : World} {r : Request} {o : Except Exc Reply}

theorem Effect.issued_keeps (h : Effect env w r o w') {T : String} (hT : T ∈ w.issued) :
    T ∈ w'.issued := by
  cases h with
  | loggedIn | refreshed => exact List.mem_cons_of_mem _ (List.mem_cons_of_mem _ hT)
  | _ => exact hT

theorem Effect.issued_pair (h : Effect env w r o w') {a b : String}
    (ho : o = .ok (.tokenPair a b)) : a ∈ w'.issued ∧ b ∈ w'.issued := by
  cases h with
  | loggedIn | refreshed =>
    cases ho
    exact ⟨List.mem_cons_self, List.mem_cons_of_mem _ List.mem_cons_self⟩
  | _ => cases ho

theorem HandedOut.request {t : Trace} (h : HandedOut env t) (he : Effect env t.world r o w') :
    HandedOut env ⟨w', ⟨t.world, r, o⟩ :: t.log⟩ := by
  intro a b u hi
  cases hi with
  | login hr ho huser => exact he.issued_pair ho
  | refresh hr ho hu => exact he.issued_pair ho
  | earlier hi =>
    obtain ⟨ha, hb⟩ := h a b u hi
    exact ⟨he.issued_keeps ha, he.issued_keeps hb⟩

theorem handedOut_after (env : Env) (now : Nat) {users : List User} (husers : TableOk users)
    {actions : List Action} (hfresh : Fresh (actions.flatMap Action.requests)) :
    HandedOut env ((Trace.start now users).after env actions) := by
  refine ledger_induction husers hfresh ?_ fun t a _ _ h _ => ?_
  · intro a b u hi
    cases hi
  · cases a with
    | request r => exact h.request (serve_effect env t.world r)
    | _ => exact h

theorem refreshClaims_congr {T : String} (hnow : w'.now = w.now)
    (hT : T ∈ w'.issued ↔ T ∈ w.issued) : w'.refreshClaims env T = w.refreshClaims env T := by
  unfold World.refreshClaims World.decodeToken
  simp only [hnow, hT]

end HandedOut

/-! ## Two requests -/

/-- Two requests for different accounts, both to be served next. -/
structure Apart (env : Env) (t : Trace) (f g : Request) (e e' : String) (u u' : UUID) :
    Prop where
  ledger : Ledger env t
  once : OneTimeTokens t.log
  handed : HandedOut env t
  lower : ∀ s, env.lower (env.lower s) = env.lower s
  fresh : Fresh (t.requests ++ [f, g])
  first : Concerns env t e u f
  second : Concerns env t e' u' g
  email : e ≠ e'
  id : u ≠ u'

theorem LooksAlike.refl {env : Env} {r : Request} {e : String} {u : UUID} {w : World} :
    LooksAlike env r e u w w where
  now := rfl
  keys _ _ := .rfl
  byEmail _ _ := rfl
  byId := rfl
  accepts _ _ _ := rfl
  claims _ _ := rfl

section Apart
variable {env : Env} {t : Trace} {f g : Request} {e e' : String} {u u' : UUID} {k : String}

namespace Apart

theorem symm (h : Apart env t f g e e' u u') : Apart env t g f e' e u' u where
  ledger := h.ledger
  once := h.once
  handed := h.handed
  lower := h.lower
  fresh := h.fresh.swap
  first := h.second
  second := h.first
  email := h.email.symm
  id := h.id.symm

theorem not_both (h : Apart env t f g e e' u u') (hf : f.Touches env t.world k) :
    ¬ g.Touches env t.world k := by
  intro hg
  rcases h.first.touches h.ledger h.once h.lower hf with hf | hf
  · rcases h.second.touches h.ledger h.once h.lower hg with hg | hg
    · exact hf.disjoint h.ledger h.once h.email h.id hg
    · exact hf.not_draws h.ledger h.once h.fresh.swap.first hg
  · rcases h.second.touches h.ledger h.once h.lower hg with hg | hg
    · exact hg.not_draws h.ledger h.once h.fresh.first hf
    · exact hf.disjoint h.fresh hg

/-- What the first request does not touch stays as it is. -/
theorem frame (h : Apart env t f g e e' u u') (hk : ¬ f.Touches env t.world k) :
    SameAt t.world.redis (serve env t.world f).2.redis k :=
  (serve_effect env t.world f).frame (fun _ _ hp => h.ledger.not_malformed hp) hk

/-- Serving the first request writes to its own account only. -/
theorem writes (h : Apart env t f g e e' u u') :
    ∃ x : Option UserWrite, (∀ write ∈ x, write.About t.world.users e u) ∧
      (serve env t.world f).2.users = written t.world.now x t.world.users := by
  obtain ⟨x, hx, husers, -⟩ := (serve_alike h.ledger h.once h.first .refl).users
  exact ⟨x, hx, husers⟩

/-- The second request does not see the first. -/
theorem looksAlike (h : Apart env t f g e e' u u') :
    LooksAlike env g e' u' t.world (serve env t.world f).2 := by
  have he := serve_effect env t.world f
  obtain ⟨x, hx, husers⟩ := h.writes
  constructor
  · exact he.now
  · exact fun k hk => h.frame fun hf => h.not_both hf hk
  · intro email hemail
    refine userByEmail_written husers hx ?_
    rw [h.lower, hemail]
    exact h.email
  · exact userById_written husers hx h.id
  · intro row hrowe hrowu
    rw [husers]
    exact accepts_written hx h.email h.id hrowe hrowu
  · intro T hT
    refine refreshClaims_congr he.now ?_
    obtain ⟨a, b, hi, hpair⟩ := h.second.presented hT
    obtain ⟨ha, hb⟩ := h.handed a b u' hi
    have hmem : T ∈ t.world.issued := by
      rcases hpair with rfl | rfl
      · exact ha
      · exact hb
    exact ⟨fun _ => hmem, fun hT => he.issued_keeps hT⟩

theorem served (h : Apart env t f g e e' u u') :
    ServedAlike e' u' t.world (serve env t.world f).2 (serve env t.world g)
      (serve env (serve env t.world f).2 g) :=
  serve_alike h.ledger h.once h.second h.looksAlike

theorem users (h : Apart env t f g e e' u u') :
    (serve env (serve env t.world f).2 g).2.users.Perm
      (serve env (serve env t.world g).2 f).2.users := by
  obtain ⟨y, hy, hg, hfg⟩ := h.served.users
  obtain ⟨x, hx, hf, hgf⟩ := h.symm.served.users
  rw [hfg, hf, hgf, hg]
  exact written_comm (fun write hwrite => (hx write hwrite).userId)
    (fun write hwrite => (hy write hwrite).userId) h.id

theorem issued (h : Apart env t f g e e' u u') :
    (serve env (serve env t.world f).2 g).2.issued.Perm
      (serve env (serve env t.world g).2 f).2.issued := by
  obtain ⟨xs, hg, hfg⟩ := h.served.issued
  obtain ⟨ys, hf, hgf⟩ := h.symm.served.issued
  rw [hfg, hf, hgf, hg, ← List.append_assoc, ← List.append_assoc]
  exact List.perm_append_comm.append_right _

/-- A key that the first request does not touch is left to the second. -/
theorem redis_of_not_touches (h : Apart env t f g e e' u u') (hk : ¬ f.Touches env t.world k) :
    SameAt (serve env (serve env t.world f).2 g).2.redis
      (serve env (serve env t.world g).2 f).2.redis k := by
  have hg : Ledger env (t.step env (.request g)) := h.ledger.request g h.fresh.swap.first
  have hfg : SameAt (serve env t.world g).2.redis
      (serve env (serve env t.world f).2 g).2.redis k := h.served.redis k (h.frame hk)
  have hgf : SameAt (serve env t.world g).2.redis
      (serve env (serve env t.world g).2 f).2.redis k :=
    (serve_effect env (serve env t.world g).2 f).frame (fun _ _ hp => hg.not_malformed hp)
      fun htouches => hk (h.symm.looksAlike.touches h.first htouches)
  exact hfg.symm.trans hgf

theorem redis (h : Apart env t f g e e' u u') (k : String) :
    SameAt (serve env (serve env t.world f).2 g).2.redis
      (serve env (serve env t.world g).2 f).2.redis k := by
  by_cases hk : f.Touches env t.world k
  · exact (h.symm.redis_of_not_touches (h.not_both hk)).symm
  · exact h.redis_of_not_touches hk

/-- What is kept for another account is none of the first request's keys. -/
theorem kept (h : Apart env t f g e e' u u') {e₁ : String} {u₁ : UUID} (he : e ≠ e₁) (hu : u ≠ u₁)
    (hk : KeptFor env t.log e₁ u₁ k) : SameAt t.world.redis (serve env t.world f).2.redis k := by
  refine h.frame fun htouches => ?_
  rcases h.first.touches h.ledger h.once h.lower htouches with hf | hf
  · exact hf.disjoint h.ledger h.once he hu hk
  · exact hk.not_draws h.ledger h.once h.fresh.first hf

/-- Nor are the rows of another account. -/
theorem rows (h : Apart env t f g e e' u u') {u₁ : UUID} (hu : u ≠ u₁) :
    (serve env t.world f).2.users.filter (fun row => row.id = u₁) =
      t.world.users.filter fun row => row.id = u₁ := by
  obtain ⟨x, hx, husers⟩ := h.writes
  rw [husers]
  cases x with
  | none => rfl
  | some write => exact UserWrite.filter_apply (by rw [(hx write rfl).userId]; exact hu)

end Apart

end Apart

/-- In every state that a run of requests, deactivations and soft deletions reaches,
two requests for different accounts, with draws of their own, can be served in either
order: each comes back with what it would have come back with alone, and the users,
Redis and the tokens handed out are the same in the end. A request leaves alone the
rows, the counter, the lock, the one-time tokens, the refresh tokens and the token set
of every other account. -/
theorem operations_commute (env : Env) (hlower : ∀ s, env.lower (env.lower s) = env.lower s)
    (now : Nat) {users : List User} (husers : TableOk users) (actions : List Action)
    {f g : Request} (hfresh : Fresh (actions.flatMap Action.requests ++ [f, g]))
    {e e' : String} {u u' : UUID}
    (hf : Concerns env ((Trace.start now users).after env actions) e u f)
    (hg : Concerns env ((Trace.start now users).after env actions) e' u' g)
    (hemail : e ≠ e') (hid : u ≠ u') :
    let t := (Trace.start now users).after env actions
    let w := t.world
    let wf := (serve env w f).2
    let wg := (serve env w g).2
    (serve env wg f).1 = (serve env w f).1 ∧ (serve env wf g).1 = (serve env w g).1 ∧
    (serve env wf g).2.users.Perm (serve env wg f).2.users ∧
    (∀ k, SameAt (serve env wf g).2.redis (serve env wg f).2.redis k) ∧
    (serve env wf g).2.issued.Perm (serve env wg f).2.issued ∧
    (∀ e₁ u₁, e ≠ e₁ → u ≠ u₁ →
      wf.users.filter (fun row => row.id = u₁) = w.users.filter (fun row => row.id = u₁) ∧
      ∀ k, KeptFor env t.log e₁ u₁ k → SameAt w.redis wf.redis k) := by
  intro t w wf wg
  have h : Apart env t f g e e' u u' := by
    constructor
    · exact ledger_after env now husers actions hfresh.of_append
    · exact oneTimeTokens_after env now users actions hfresh.of_append
    · exact handedOut_after env now husers hfresh.of_append
    · exact hlower
    · rwa [Trace.requests_start_after]
    · exact hf
    · exact hg
    · exact hemail
    · exact hid
  refine ⟨h.symm.served.outcome, h.served.outcome, h.users, h.redis, h.issued,
    fun e₁ u₁ he hu => ?_⟩
  exact ⟨h.rows hu, fun k hk => h.kept he hu hk⟩

/-! ### Ada resets her password while Bob logs in -/

def bobJoins : List Action := adaJoins ++ [
  .request (.register "bob@example.com" "open sesame" "Bob" ⟨plainUuid .zero .one, "s2", "v2"⟩),
  .request (.verifyEmail "v2")]

theorem operations_commute_ada_bob :
    let w := ((Trace.start 1000 []).after plainEnv bobJoins).world
    let f := Request.resetPassword "x1" "battery staple" "s1"
    let g := Request.login "bob@example.com" "open sesame" (plainDraws .two)
    (serve plainEnv (serve plainEnv w g).2 f).1 = (serve plainEnv w f).1 ∧
    (serve plainEnv (serve plainEnv w f).2 g).1 = (serve plainEnv w g).1 := by
  intro w f g
  have hf : Concerns plainEnv ((Trace.start 1000 []).after plainEnv bobJoins) "ada@example.com"
      (plainUuid .zero .zero) f := by
    refine .resetPassword ⟨_, List.mem_cons_of_mem _ (List.mem_cons_of_mem _ List.mem_cons_self),
      adaVerified, ?_, rfl⟩ (by decide +kernel)
    decide +kernel
  have hg : Concerns plainEnv ((Trace.start 1000 []).after plainEnv bobJoins) "bob@example.com"
      (plainUuid .zero .one) g := .login (by decide +kernel) (by decide +kernel)
  have hcommute := operations_commute plainEnv saltedEnv_lower 1000 tableOk_nil bobJoins
    (by decide +kernel) hf hg (by decide +kernel) (by decide +kernel)
  exact ⟨hcommute.1, hcommute.2.1⟩

end TaskMgtApp.Auth
