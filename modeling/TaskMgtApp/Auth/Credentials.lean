import TaskMgtApp.Auth.Accounts
import TaskMgtApp.Auth.Instance

/-!
# Every credential acts only as what it was issued for

Four kinds of token are in use: the one-time tokens of an email verification and of
a password reset, and the two tokens of a pair, which share one format. Whatever
string is presented, and whatever has happened to the accounts, it either does
nothing or acts on the one account for which it was issued as a token of that kind.
-/
namespace TaskMgtApp.Auth

open TaskMgtApp.Common
open TaskMgtApp.Lib.Program TaskMgtApp.Lib.Program.Prog
open TaskMgtApp.Lib.ExpiringStore

/-! ## `app/auth/deps.py` -/

/-- The message of every refused access token. -/
def accessTokenMessage : String := "Invalid or expired token."

/-- `get_current_user`. -/
def getCurrentUser (token : String) : AuthM User := do
  let payload ← tryCatch (decodeToken token) fun
    | .pyJWTError => throw (.invalidCredentialsError accessTokenMessage)
    | exc => throw exc
  if payload.type ≠ .access then throw (.invalidCredentialsError accessTokenMessage)
  else
    let userId ← uuidOf payload.sub
    match ← getById userId with
    | none => throw (.invalidCredentialsError accessTokenMessage)
    | some user =>
      if user.isActive = false then throw (.invalidCredentialsError accessTokenMessage)
      else return user

/-- The user a request is authenticated as, with nothing beside it. -/
def World.currentUser (env : Env) (w : World) (token : String) : Except Exc User :=
  ((getCurrentUser token).run (exec env) ([], w)).1

theorem currentUser_ok {env : Env} {w : World} {token : String} {user : User}
    (h : w.currentUser env token = .ok user) :
    ∃ p u, token ∈ w.issued ∧ env.decode token = some p ∧ p.type = .access ∧ p.sub = u.str ∧
      w.userById u = some user ∧ user.isActive = true := by
  have hv : visibleRows [] w = w.users := by simp [visibleRows]
  unfold World.currentUser getCurrentUser at h
  rw [run_bind, run_catch] at h
  cases hd : w.decodeToken env token with
  | none => simp [exec, hd] at h
  | some p =>
    simp only [run_perform, exec, hd] at h
    by_cases hp : p.type = .access
    · cases hu : UUID.parse p.sub with
      | none => simp [hp, uuidOf, hu] at h
      | some u =>
        cases hfound : w.userById u with
        | none =>
          unfold World.userById at hfound
          simp [hp, uuidOf, hu, run_call, exec, hv, hfound] at h
        | some found =>
          have hfound' := hfound
          unfold World.userById at hfound'
          by_cases hactive : found.isActive = false
          · simp [hp, uuidOf, hu, run_call, exec, hv, hfound', hactive] at h
          · obtain rfl : found = user := by
              simpa [hp, uuidOf, hu, run_call, exec, hv, hfound', hactive] using h
            unfold World.decodeToken at hd
            by_cases hi : token ∈ w.issued
            · simp only [hi, if_true, Option.filter_eq_some_iff] at hd
              exact ⟨p, u, hi, hd.1, hp, UUID.parse_eq_some.mp hu, hfound, by simpa using hactive⟩
            · simp [hi] at hd
    · simp [hp] at h

/-! ## Kinds of credential -/

inductive Kind where
  | verification
  | reset
  | access
  | refresh
  deriving DecidableEq

/-- `x` was issued as a token of this kind, for the account `u`. -/
def IssuedAs (env : Env) (log : List Entry) (kind : Kind) (x : String) (u : UUID) : Prop :=
  match kind with
  | .verification => Registered log x u
  | .reset => ResetIssued log x u
  | .access => ∃ T, IssuedTo env log x T u
  | .refresh => ∃ a, IssuedTo env log a x u

/-- The requests that present `x` as a token of some kind. -/
inductive Presents : Kind → String → Request → Prop
  | verifyEmail {x : String} : Presents .verification x (.verifyEmail x)
  | resetPassword {x newPassword salt : String} : Presents .reset x (.resetPassword x newPassword salt)
  | refreshAccessToken {x : String} {d : IssueDraws} : Presents .refresh x (.refreshAccessToken x d)
  | logout {x : String} : Presents .refresh x (.logout x)

/-- From `s` to `s'`, nothing has changed but what is kept for the account `u`. -/
structure StoreActs (u : UUID) (now : Nat) (s s' : Redis) : Prop where
  written : ∀ k c, s'.look now k = some c → s.look now k = some c ∨ c.value = .text u.str
  removed : ∀ k c, s.look now k = some c → s'.look now k = some c ∨ c.value = .text u.str
  sets : ∀ k, k ≠ userTokensKey u → s'.sets k = s.sets k

/-- From `w` to `w'`, nothing has changed but the account `u` and what is kept for it. -/
structure ActsOn (env : Env) (u : UUID) (w w' : World) : Prop where
  rows : ∃ g : User → User, w'.users = w.users.map g ∧ ∀ row, g row ≠ row → row.id = u
  store : StoreActs u w.now w.redis w'.redis
  issued : ∀ T ∈ w'.issued, T ∈ w.issued ∨ ∃ p, env.decode T = some p ∧ p.sub = u.str

/-! ## What a presented token does -/

section Stores
variable {u : UUID} {now : Nat} {s s' s'' : Redis}

theorem StoreActs.trans (h : StoreActs u now s s') (h' : StoreActs u now s' s'') :
    StoreActs u now s s'' where
  written k c hc := by
    rcases h'.written k c hc with hc | hv
    · exact h.written k c hc
    · exact .inr hv
  removed k c hc := by
    rcases h.removed k c hc with hc | hv
    · exact h'.removed k c hc
    · exact .inr hv
  sets k hk := (h'.sets k hk).trans (h.sets k hk)

/-- Deleting keys that hold `u`, and no set of anybody else. -/
theorem StoreActs.delete {ks : Finset String}
    (hcells : ∀ k ∈ ks, ∀ c, s.look now k = some c → c.value = .text u.str)
    (hsets : ∀ k ∈ ks, k ≠ userTokensKey u → s.sets k = ∅) :
    StoreActs u now s (s.delete now ks).2 where
  written k c hc := .inl (look_of_delete now hc)
  removed k c hc := by
    by_cases hk : k ∈ ks
    · exact .inr (hcells k hk c hc)
    · left
      rwa [Store.look_delete, if_neg hk]
  sets k hk := by
    rw [Store.sets_delete]
    split
    · rename_i hks
      exact (hsets k hks hk).symm
    · rfl

theorem sets_delete_empty {k : String} {ks : Finset String} (h : s.sets k = ∅) :
    (s.delete now ks).2.sets k = ∅ := by
  rw [Store.sets_delete]
  split
  · rfl
  · exact h

theorem StoreActs.srem (j : String) : StoreActs u now s (s.srem (userTokensKey u) j).2 where
  written k c hc := .inl hc
  removed k c hc := .inl hc
  sets k hk := by rw [Store.sets_srem, if_neg hk]

/-- Recording a token under a key that holds nothing of anybody else. -/
theorem StoreActs.recordToken {env : Env} {w : World} {d : IssueDraws}
    (hnew : ∀ c, w.redis.look w.now (refreshTokenKey d.refreshJti.str) = some c →
      c.value = .text u.str) :
    StoreActs u w.now w.redis (w.recordToken env u d) where
  written k c hc := by
    rcases look_recordToken hc with hc | ⟨-, rfl⟩
    · exact .inl hc
    · exact .inr rfl
  removed k c hc := by
    by_cases hk : k = refreshTokenKey d.refreshJti.str
    · subst hk
      exact .inr (hnew c hc)
    · left
      unfold World.recordToken
      rwa [Store.look_sadd, Store.look_setEx, if_neg hk]
  sets k hk := by
    unfold World.recordToken
    rw [Store.sets_sadd, if_neg hk, Store.sets_setEx]

end Stores

section Acts
variable {env : Env} {t : Trace} {o : Except Exc Reply} {w' : World}

/-- A write of a session changes the row it was loaded from. -/
theorem id_of_applyRow {now : Nat} {row user : User} {x : UserWrite}
    (hx : x = .emailVerified user ∨ ∃ hash, x = .passwordHash user hash)
    (h : x.applyRow now row ≠ row) : row.id = user.id := by
  by_contra hid
  apply h
  rcases hx with rfl | ⟨hash, rfl⟩
  · exact if_neg fun hand => hid hand.1
  · exact if_neg fun hand => hid hand.1

theorem text_eq_some {w : World} {k : String} {s : String} (h : w.text k = some s) :
    ∃ c, w.redis.look w.now k = some c ∧ c.value.str = s := by
  obtain ⟨v, hv, rfl⟩ := Option.map_eq_some_iff.mp h
  obtain ⟨d, hd⟩ := Store.get_eq_some.mp hv
  exact ⟨_, hd, rfl⟩

/-- A verification key holds the account that was registered with the token. -/
theorem Ledger.verifyCell (h : Ledger env t) {x : String} {u : UUID}
    (htext : t.world.text (emailVerifyKey x) = some u.str) :
    ∃ c, t.world.redis.look t.world.now (emailVerifyKey x) = some c ∧ c.value = .text u.str ∧
      Registered t.log x u := by
  obtain ⟨c, hc, hcu⟩ := text_eq_some htext
  obtain ⟨v, hv, hreg⟩ := h.verifyKeys x c hc
  rw [hv] at hcu
  obtain rfl := UUID.str_inj.mp hcu
  exact ⟨c, hc, hv, hreg⟩

/-- A reset key holds the account for which the link was issued. -/
theorem Ledger.resetCell (h : Ledger env t) {x : String} {u : UUID}
    (htext : t.world.text (pwdResetKey x) = some u.str) :
    ∃ c, t.world.redis.look t.world.now (pwdResetKey x) = some c ∧ c.value = .text u.str ∧
      ResetIssued t.log x u := by
  obtain ⟨c, hc, hcu⟩ := text_eq_some htext
  obtain ⟨v, hv, hissued⟩ := h.resetKeys x c hc
  rw [hv] at hcu
  obtain rfl := UUID.str_inj.mp hcu
  exact ⟨c, hc, hv, hissued⟩

/-- Only the index of an account is a set. -/
theorem Ledger.sets_empty (h : Ledger env t) {k : String} (hk : ∀ u, k ≠ userTokensKey u) :
    t.world.redis.sets k = ∅ := by
  rw [Finset.eq_empty_iff_forall_notMem]
  intro j hj
  obtain ⟨u, hu, -⟩ := h.members k j hj
  exact hk u hu

/-- A `jti` of `u` is a key of `u`. -/
theorem Ledger.value_of_minted (h : Ledger env t) {j : String} {u : UUID} (hm : Minted env t.log j u)
    {c : Cell Value} (hc : t.world.redis.look t.world.now (refreshTokenKey j) = some c) :
    c.value = .text u.str := by
  obtain ⟨v, hv, hm'⟩ := h.refreshKeys j c hc
  rw [h.owner j u v hm hm']
  exact hv

theorem Ledger.not_malformed (h : Ledger env t) {T : String} {p : Claims}
    (hp : t.world.refreshClaims env T = some p) : UUID.parse p.sub ≠ none := by
  obtain ⟨a, u, -, hu⟩ := h.issuedTo_of_refreshClaims hp
  rw [hu, UUID.parse_str]
  exact Option.some_ne_none u

theorem Ledger.verify_acts (h : Ledger env t) {x : String}
    (he : Effect env t.world (.verifyEmail x) o w') :
    ((∃ e, o = .error e) ∧ w' = t.world) ∨
      ∃ u, Registered t.log x u ∧ ActsOn env u t.world w' := by
  cases he with
  | refused => exact .inl ⟨⟨_, rfl⟩, rfl⟩
  | malformedSubject _ token p hclaims hsub => exact absurd hsub (h.not_malformed hclaims)
  | verified _ userId user htext huser =>
    obtain rfl := World.id_of_userById huser
    obtain ⟨c, hc, hv, hreg⟩ := h.verifyCell htext
    right
    refine ⟨user.id, hreg, ⟨_, rfl, fun row hrow => id_of_applyRow (.inl rfl) hrow⟩, ?_, ?_⟩
    · apply StoreActs.delete
      · intro k hk c' hc'
        obtain rfl := Finset.mem_singleton.mp hk
        exact Option.some.inj (hc'.symm.trans hc) ▸ hv
      · intro k hk _
        obtain rfl := Finset.mem_singleton.mp hk
        exact h.sets_empty fun u => by simp
    · exact fun T hT => .inl hT

theorem Ledger.reset_acts (h : Ledger env t) {x newPassword salt : String}
    (he : Effect env t.world (.resetPassword x newPassword salt) o w') :
    ((∃ e, o = .error e) ∧ w' = t.world) ∨
      ∃ u, ResetIssued t.log x u ∧ ActsOn env u t.world w' := by
  cases he with
  | refused => exact .inl ⟨⟨_, rfl⟩, rfl⟩
  | malformedSubject _ token p hclaims hsub => exact absurd hsub (h.not_malformed hclaims)
  | reset _ _ _ userId user htext huser =>
    obtain rfl := World.id_of_userById huser
    obtain ⟨c, hc, hv, hreg⟩ := h.resetCell htext
    right
    refine ⟨user.id, hreg, ⟨_, rfl, fun row hrow => id_of_applyRow (.inr ⟨_, rfl⟩) hrow⟩, ?_, ?_⟩
    · have hlink : StoreActs user.id t.world.now t.world.redis
          (t.world.redis.delete t.world.now {pwdResetKey x}).2 := by
        apply StoreActs.delete
        · intro k hk c' hc'
          obtain rfl := Finset.mem_singleton.mp hk
          exact Option.some.inj (hc'.symm.trans hc) ▸ hv
        · intro k hk _
          obtain rfl := Finset.mem_singleton.mp hk
          exact h.sets_empty fun u => by simp
      refine hlink.trans (.trans (.delete ?_ ?_) (.delete ?_ ?_))
      · intro k hk c' hc'
        obtain ⟨j, hj, rfl⟩ := Finset.mem_image.mp hk
        obtain ⟨v, hkv, hm⟩ := h.members _ j (sets_of_delete t.world.now hj)
        obtain rfl := (userTokensKey_inj _ _).mp hkv
        exact h.value_of_minted hm (look_of_delete t.world.now hc')
      · intro k hk _
        obtain ⟨j, -, rfl⟩ := Finset.mem_image.mp hk
        exact sets_delete_empty (h.sets_empty fun u => by simp)
      · intro k hk c' hc'
        obtain rfl := Finset.mem_singleton.mp hk
        have hcell := look_of_delete t.world.now (look_of_delete t.world.now hc')
        rw [h.indexKeys] at hcell
        cases hcell
      · intro k hk hne
        exact absurd (Finset.mem_singleton.mp hk) hne
    · exact fun T hT => .inl hT

/-- A refresh or a logout spends the token it presents. -/
theorem Ledger.spend_acts (h : Ledger env t) {T a : String} {p : Claims} {u : UUID}
    (hi : IssuedTo env t.log a T u) (hp : t.world.refreshClaims env T = some p) :
    StoreActs u t.world.now t.world.redis
      ((t.world.redis.delete t.world.now {refreshTokenKey p.jti}).2.srem (userTokensKey u) p.jti).2 := by
  refine .trans (.delete ?_ ?_) (.srem p.jti)
  · intro k hk c hc
    obtain rfl := Finset.mem_singleton.mp hk
    exact h.value_of_minted ⟨a, T, p, hi, (issued_of_refreshClaims hp).2.1, rfl⟩ hc
  · intro k hk _
    obtain rfl := Finset.mem_singleton.mp hk
    exact h.sets_empty fun u => by simp

theorem Ledger.refresh_acts (h : Ledger env t) {T : String} {d : IssueDraws}
    (hfresh : Fresh (t.requests ++ [.refreshAccessToken T d]))
    (he : Effect env t.world (.refreshAccessToken T d) o w') :
    ((∃ e, o = .error e) ∧ w' = t.world) ∨
      ∃ u, (∃ a, IssuedTo env t.log a T u) ∧ ActsOn env u t.world w' := by
  cases he with
  | refused => exact .inl ⟨⟨_, rfl⟩, rfl⟩
  | malformedSubject _ token p hclaims hsub => exact absurd hsub (h.not_malformed hclaims)
  | refreshed _ _ p u hclaims hsub =>
    have hp := ((acceptedClaims_eq_some_iff env t.world).mp hclaims).1
    obtain ⟨a, v, hi, hv⟩ := h.issuedTo_of_refreshClaims hp
    obtain rfl : u = v := UUID.str_inj.mp (hsub.symm.trans hv)
    right
    refine ⟨u, ⟨a, hi⟩, ⟨id, (List.map_id _).symm, fun row hrow => absurd rfl hrow⟩, ?_, ?_⟩
    · refine (h.spend_acts hi hp).trans (StoreActs.recordToken (w := { t.world with
        redis := ((t.world.redis.delete t.world.now {refreshTokenKey p.jti}).2.srem
          (userTokensKey u) p.jti).2 }) ?_)
      intro c hc
      rw [Store.look_srem] at hc
      obtain ⟨v, hv, hm⟩ := h.refreshKeys _ c (look_of_delete t.world.now hc)
      obtain ⟨e, he, i, hi, hij⟩ := h.drawn _ v hm
      exact absurd (UUID.str_inj.mp hij) (hfresh.drawn_new he hi (by simp [Request.jtis]))
    · intro S hS
      rcases List.mem_cons.mp hS with rfl | hS
      · exact .inr ⟨_, env.decode_encode _, rfl⟩
      · rcases List.mem_cons.mp hS with rfl | hS
        · exact .inr ⟨_, env.decode_encode _, rfl⟩
        · exact .inl hS

theorem Ledger.logout_acts (h : Ledger env t) {T : String}
    (he : Effect env t.world (.logout T) o w') :
    w' = t.world ∨ ∃ u, (∃ a, IssuedTo env t.log a T u) ∧ ActsOn env u t.world w' := by
  cases he with
  | refused _ e hr => exact absurd rfl (hr T)
  | alreadyLoggedOut => exact .inl rfl
  | malformedSubject _ token p hclaims hsub => exact absurd hsub (h.not_malformed hclaims)
  | loggedOut _ p u hclaims hsub =>
    obtain ⟨a, v, hi, hv⟩ := h.issuedTo_of_refreshClaims hclaims
    obtain rfl : u = v := UUID.str_inj.mp (hsub.symm.trans hv)
    right
    exact ⟨u, ⟨a, hi⟩, ⟨id, (List.map_id _).symm, fun row hrow => absurd rfl hrow⟩,
      h.spend_acts hi hclaims, fun S hS => .inl hS⟩

end Acts

/-! ## One kind, one account -/

/-- A one-time token, of one kind or the other, was issued for the account `u`. -/
def OneTime (log : List Entry) (verification : Bool) (x : String) (u : UUID) : Prop :=
  if verification then Registered log x u else ResetIssued log x u

/-- One-time tokens were drawn by the request that returned them, and each was returned once. -/
structure OneTimeTokens (log : List Entry) : Prop where
  drawn : ∀ b x u, OneTime log b x u → ∃ e ∈ log, x ∈ e.request.oneTimeTokens
  unique : ∀ b b' x u v, OneTime log b x u → OneTime log b' x v → b = b' ∧ u = v

/-- What a request returns as a one-time token. -/
def Entry.gives (e : Entry) (verification : Bool) (x : String) (u : UUID) : Prop :=
  ∃ user : User, user.id = u ∧ e.outcome =
    .ok (if verification then .registered user x else .resetRequested (some (user, x)))

section Once
variable {env : Env} {w w' : World} {r : Request} {o : Except Exc Reply} {e : Entry}
  {log : List Entry} {b b' : Bool} {x : String} {u v : UUID}

theorem oneTime_cons : OneTime (e :: log) b x u ↔ e.gives b x u ∨ OneTime log b x u := by
  cases b <;> simp [OneTime, Registered, ResetIssued, Entry.gives, and_comm]

theorem Effect.drawn (h : Effect env w r o w') (hg : (⟨w, r, o⟩ : Entry).gives b x u) :
    x ∈ r.oneTimeTokens := by
  obtain ⟨user, -, ho⟩ := hg
  dsimp only at ho
  cases b with
  | true =>
    cases h <;> cases ho
    exact List.mem_singleton_self _
  | false =>
    cases h <;> cases ho
    exact List.mem_singleton_self _

theorem gives_unique (h : e.gives b x u) (h' : e.gives b' x v) : b = b' ∧ u = v := by
  obtain ⟨user, rfl, ho⟩ := h
  obtain ⟨user', rfl, ho'⟩ := h'
  rw [ho] at ho'
  cases b <;> cases b' <;> cases ho' <;> exact ⟨rfl, rfl⟩

theorem OneTimeTokens.request {t : Trace} (h : OneTimeTokens t.log)
    (hfresh : Fresh (t.requests ++ [r])) (he : Effect env t.world r o w') :
    OneTimeTokens (⟨t.world, r, o⟩ :: t.log) where
  drawn b x u hx := by
    rcases oneTime_cons.mp hx with hg | hx
    · exact ⟨_, List.mem_cons_self, he.drawn hg⟩
    · obtain ⟨e, hmem, hdrawn⟩ := h.drawn b x u hx
      exact ⟨e, List.mem_cons_of_mem _ hmem, hdrawn⟩
  unique b b' x u v hx hx' := by
    have hnew : ∀ {b b' : Bool} {u v : UUID}, OneTime t.log b x u →
        ¬ (⟨t.world, r, o⟩ : Entry).gives b' x v := by
      intro b b' u v hold hg
      obtain ⟨e, hmem, hdrawn⟩ := h.drawn b x u hold
      exact hfresh.oneTimeToken_new hmem hdrawn (he.drawn hg) rfl
    rcases oneTime_cons.mp hx with hg | hx
    · rcases oneTime_cons.mp hx' with hg' | hx'
      · exact gives_unique hg hg'
      · exact absurd hg (hnew hx')
    · rcases oneTime_cons.mp hx' with hg' | hx'
      · exact absurd hg' (hnew hx)
      · exact h.unique b b' x u v hx hx'

theorem oneTimeTokens_after (env : Env) (now : Nat) (users : List User) (actions : List Action)
    (hfresh : Fresh (actions.flatMap Action.requests)) :
    OneTimeTokens ((Trace.start now users).after env actions).log := by
  refine Trace.after_induction (P := fun t => OneTimeTokens t.log) ?_
    (by simpa [Trace.requests, Trace.start] using hfresh) ?_
  · constructor
    · intro b x u hx
      cases b <;> simp [OneTime, Registered, ResetIssued, Trace.start] at hx
    · intro b b' x u v hx
      cases b <;> simp [OneTime, Registered, ResetIssued, Trace.start] at hx
  · intro t a h hf
    cases a with
    | request r => exact h.request hf (serve_effect env t.world r)
    | _ => exact h

/-- What every action preserves in a state that agrees with the log holds after a whole run. -/
theorem ledger_induction {env : Env} {P : Trace → Prop} {now : Nat} {users : List User}
    (husers : TableOk users) {actions : List Action} (hfresh : Fresh (actions.flatMap Action.requests))
    (hstart : P (Trace.start now users))
    (hstep : ∀ t a, Ledger env t → OneTimeTokens t.log → P t → Fresh (t.requests ++ a.requests) →
      P (t.step env a)) :
    P ((Trace.start now users).after env actions) := by
  suffices hall : Ledger env ((Trace.start now users).after env actions) ∧
      OneTimeTokens ((Trace.start now users).after env actions).log ∧
      P ((Trace.start now users).after env actions) from hall.2.2
  refine Trace.after_induction (P := fun t => Ledger env t ∧ OneTimeTokens t.log ∧ P t)
    ⟨.start env now husers, oneTimeTokens_after env now users [] (by decide), hstart⟩
    (by simpa [Trace.requests, Trace.start] using hfresh) ?_
  intro t a h hf
  obtain ⟨hledger, honce, hp⟩ := h
  refine ⟨hledger.step a hf, ?_, hstep t a hledger honce hp hf⟩
  cases a with
  | request r => exact honce.request hf (serve_effect env t.world r)
  | _ => exact honce

end Once

/-- No string was issued as a token of two kinds, or for two accounts, if what is drawn
as a one-time token is no JWT. -/
theorem issuedAs_unique {env : Env} {t : Trace} (h : Ledger env t) (honce : OneTimeTokens t.log)
    (hplain : ∀ e ∈ t.log, ∀ x ∈ e.request.oneTimeTokens, env.decode x = none) {k k' : Kind}
    {x : String} {u v : UUID} (hu : IssuedAs env t.log k x u) (hv : IssuedAs env t.log k' x v) :
    k = k' ∧ u = v := by
  have hplain' : ∀ {b : Bool} {u : UUID}, OneTime t.log b x u → env.decode x = none := by
    intro b u hb
    obtain ⟨e, hmem, hdrawn⟩ := honce.drawn b x u hb
    exact hplain e hmem x hdrawn
  have hdecode : ∀ {k : Kind} {u : UUID}, k = .access ∨ k = .refresh → IssuedAs env t.log k x u →
      ∃ p, env.decode x = some p ∧ p.type = (if k = .access then .access else .refresh) ∧
        p.sub = u.str := by
    rintro k u (rfl | rfl) hk
    · obtain ⟨T, hi⟩ := hk
      exact (h.pairs _ _ _ hi).access
    · obtain ⟨a, hi⟩ := hk
      exact (h.pairs _ _ _ hi).refresh
  have hshape : ∀ {k : Kind} {u : UUID}, IssuedAs env t.log k x u →
      (∃ b, OneTime t.log b x u ∧ k = if b then .verification else .reset) ∨
        (k = .access ∨ k = .refresh) := by
    intro k u hk
    cases k with
    | verification => exact .inl ⟨true, hk, rfl⟩
    | reset => exact .inl ⟨false, hk, rfl⟩
    | access => exact .inr (.inl rfl)
    | refresh => exact .inr (.inr rfl)
  rcases hshape hu with ⟨b, hb, rfl⟩ | hk
  · rcases hshape hv with ⟨b', hb', rfl⟩ | hk'
    · obtain ⟨rfl, rfl⟩ := honce.unique b b' x u v hb hb'
      exact ⟨rfl, rfl⟩
    · obtain ⟨p, hp, -⟩ := hdecode hk' hv
      rw [hplain' hb] at hp
      cases hp
  · obtain ⟨p, hp, htype, hsub⟩ := hdecode hk hu
    rcases hshape hv with ⟨b', hb', rfl⟩ | hk'
    · rw [hplain' hb'] at hp
      cases hp
    · obtain ⟨q, hq, htype', hsub'⟩ := hdecode hk' hv
      obtain rfl := Option.some.inj (hp.symm.trans hq)
      refine ⟨?_, UUID.str_inj.mp (hsub.symm.trans hsub')⟩
      rw [htype] at htype'
      rcases hk with rfl | rfl <;> rcases hk' with rfl | rfl <;> first | rfl | cases htype'

theorem mem_log_after {env : Env} {now : Nat} {users : List User} {actions : List Action} {e : Entry}
    (he : e ∈ ((Trace.start now users).after env actions).log) :
    e.request ∈ actions.flatMap Action.requests := by
  rw [← Trace.requests_start_after env now users actions]
  simpa [Trace.requests] using ⟨e, he, rfl⟩

/-- After every run of requests, deactivations and soft deletions, a string presented as
a verification, reset or refresh token is refused or ignored and changes nothing, or it
was issued as such a token for one account and acts on that account only; a string
presented as an access token is taken for the account, active and not deleted, for which
it was issued as one. No string was issued as two kinds of token or for two accounts. -/
theorem credentials_act_as_issued (env : Env) (now : Nat) {users : List User}
    (husers : TableOk users) (actions : List Action)
    (hfresh : Fresh (actions.flatMap Action.requests))
    (hplain : ∀ r ∈ actions.flatMap Action.requests, ∀ x ∈ r.oneTimeTokens, env.decode x = none) :
    let t := (Trace.start now users).after env actions
    (∀ k x r, Presents k x r → Fresh (actions.flatMap Action.requests ++ [r]) →
      (((∃ e, (serve env t.world r).1 = .error e) ∨ r = .logout x) ∧
          (serve env t.world r).2 = t.world) ∨
        ∃ u, IssuedAs env t.log k x u ∧ ActsOn env u t.world (serve env t.world r).2) ∧
    (∀ x user, t.world.currentUser env x = .ok user → IssuedAs env t.log .access x user.id ∧
      user ∈ t.world.users ∧ user.isActive = true ∧ user.deletedAt = none) ∧
    (∀ k k' x u v, IssuedAs env t.log k x u → IssuedAs env t.log k' x v → k = k' ∧ u = v) := by
  intro t
  have h : Ledger env t := ledger_after env now husers actions hfresh
  refine ⟨?_, ?_, ?_⟩
  · intro k x r hpresents hr
    have he := serve_effect env t.world r
    have hr' : Fresh (t.requests ++ [r]) := by
      rwa [Trace.requests_start_after]
    cases hpresents with
    | verifyEmail =>
      rcases h.verify_acts he with ⟨ho, hw⟩ | hacts
      · exact .inl ⟨.inl ho, hw⟩
      · exact .inr hacts
    | resetPassword =>
      rcases h.reset_acts he with ⟨ho, hw⟩ | hacts
      · exact .inl ⟨.inl ho, hw⟩
      · exact .inr hacts
    | refreshAccessToken =>
      rcases h.refresh_acts hr' he with ⟨ho, hw⟩ | hacts
      · exact .inl ⟨.inl ho, hw⟩
      · exact .inr hacts
    | logout =>
      rcases h.logout_acts he with hw | hacts
      · exact .inl ⟨.inr rfl, hw⟩
      · exact .inr hacts
  · intro x user huser
    obtain ⟨p, u, hissued, hp, htype, hsub, hfound, hactive⟩ := currentUser_ok huser
    obtain rfl := World.id_of_userById hfound
    refine ⟨?_, List.mem_of_find?_eq_some hfound, hactive, ?_⟩
    · obtain ⟨a, b, v, hi, rfl | rfl⟩ := h.issued x hissued
      · obtain ⟨q, hq, -, hqsub⟩ := (h.pairs _ _ _ hi).access
        obtain rfl := Option.some.inj (hp.symm.trans hq)
        obtain rfl : user.id = v := UUID.str_inj.mp (hsub.symm.trans hqsub)
        exact ⟨b, hi⟩
      · obtain ⟨q, hq, hrefresh, -⟩ := (h.pairs _ _ _ hi).refresh
        obtain rfl := Option.some.inj (hp.symm.trans hq)
        rw [htype] at hrefresh
        cases hrefresh
    · have hd := List.find?_some hfound
      simp only [Bool.and_eq_true, Option.isNone_iff_eq_none] at hd
      exact hd.1
  · intro k k' x u v hu hv
    exact issuedAs_unique h (oneTimeTokens_after env now users actions hfresh)
      (fun e he => hplain e.request (mem_log_after he)) hu hv

/-! ### An account that is registered, used and asked to be reset -/

def adaJoins : List Action := [
  .request (.register "Ada@example.com" "correct horse" "Ada" ⟨plainUuid .zero .zero, "s0", "v1"⟩),
  .request (.verifyEmail "v1"),
  .wait 60,
  .request (.login "ada@example.com" "correct horse" (plainDraws .one)),
  .request (.requestPasswordReset "ada@example.com" "x1")]

/-- The row of Ada once she has joined. -/
def adaVerified : User := { ada with createdAt := 1000, updatedAt := 1000 }

theorem tableOk_nil : TableOk [] := ⟨List.nodup_nil, fun a ha => by cases ha⟩

/-- The reset link of Ada acts on the account for which it was issued. -/
theorem credentials_act_as_issued_reset :
    let t := (Trace.start 1000 []).after plainEnv adaJoins
    ∃ u, IssuedAs plainEnv t.log .reset "x1" u ∧
      ActsOn plainEnv u t.world (serve plainEnv t.world (.resetPassword "x1" "battery staple" "s1")).2 := by
  intro t
  have hacts := (credentials_act_as_issued plainEnv 1000 tableOk_nil adaJoins (by decide +kernel)
    (by decide +kernel)).1 .reset "x1" (.resetPassword "x1" "battery staple" "s1") .resetPassword
    (by decide +kernel)
  refine hacts.resolve_left ?_
  rintro ⟨(⟨e, he⟩ | hr), -⟩
  · have hok : (serve plainEnv t.world (.resetPassword "x1" "battery staple" "s1")).1 = .ok .none := by
      decide +kernel
    rw [hok] at he
    cases he
  · cases hr

end TaskMgtApp.Auth
