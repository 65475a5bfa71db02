import TaskMgtApp.Auth.AccessLifetime
import TaskMgtApp.Auth.Commutation

/-!
# What one address notices of the others

Two traces, the second without some actions that were about other addresses. As far as the
accounts of the address `e` go they stay alike: an action elsewhere leaves alone everything
that is kept for `e` (`AlikeFor.elsewhere`), and an action that is not elsewhere is served
alike in both (`AlikeFor.request`).
-/
namespace TaskMgtApp.Auth

open TaskMgtApp.Common
open TaskMgtApp.Lib.ExpiringStore

/-! ## Actions elsewhere -/

/-- The account `u` has another address than `e`. -/
def Other (users : List User) (e : String) (u : UUID) : Prop :=
  ∃ row ∈ users, row.id = u ∧ row.email ≠ e

/-- The request names another address than `e`, or the token it presents was issued, if at
all, for an account with another address. -/
def Request.Elsewhere (env : Env) (t : Trace) (e : String) : Request → Prop
  | .register email _ _ _ | .login email _ _ | .requestPasswordReset email _ => env.lower email ≠ e
  | .verifyEmail x => ∀ u, Registered t.log x u → Other t.world.users e u
  | .resetPassword x _ _ => ∀ u, ResetIssued t.log x u → Other t.world.users e u
  | .refreshAccessToken T _ | .logout T =>
      ∀ a b u, IssuedTo env t.log a b u → T = a ∨ T = b → Other t.world.users e u

def Action.Elsewhere (env : Env) (t : Trace) (e : String) : Action → Prop
  | .wait _ => False
  | .request r => r.Elsewhere env t e
  | .setActive id _ | .softDelete id => Other t.world.users e id

/-- The ids that a request draws for accounts. -/
def Request.userIds : Request → List UUID
  | .register _ _ _ d => [d.userId]
  | _ => []

/-- The keys kept for the accounts of the address `e`. -/
def BoxKey (env : Env) (t : Trace) (e k : String) : Prop :=
  k = loginAttemptsKey e ∨ k = loginLockKey e ∨
    ∃ u, ¬ Other t.world.users e u ∧ KeptFor env t.log e u k

/-! ## Keys that nobody has drawn -/

/-- There is nothing under the key, and never was. -/
structure Blank (s : Redis) (k : String) : Prop where
  look : ∀ n, s.look n k = none
  sets : s.sets k = ∅

/-- What holds of every trace, put together. -/
structure Sound (env : Env) (t : Trace) : Prop where
  ledger : Ledger env t
  once : OneTimeTokens t.log
  handed : HandedOut env t
  blank : ∀ (r : Request) (k : String), r.Draws k → (∀ e ∈ t.log, ¬ e.request.Draws k) →
    Blank t.world.redis k

section Blank
variable {env : Env} {t : Trace} {s s' : Redis} {k : String} {r : Request}

theorem Blank.sameAt (h : Blank s k) (h' : Blank s' k) : SameAt s s' k :=
  ⟨fun n => (h'.look n).trans (h.look n).symm, h'.sets.trans h.sets.symm⟩

theorem Blank.of_sameAt (h : Blank s k) (hs : SameAt s s' k) : Blank s' k :=
  ⟨fun n => (hs.look n).trans (h.look n), hs.sets.trans h.sets⟩

theorem Ledger.wellFormed (h : Ledger env t) : WellFormed env t.world :=
  fun _ _ hp => h.not_malformed hp

/-- A request that touches a key which nobody has drawn draws it, or ends where it began. -/
theorem Ledger.touches_blank (h : Ledger env t) (hnot : ∀ e ∈ t.log, ¬ e.request.Draws k)
    (hblank : Blank t.world.redis k) {g : Request} (hg : g.Draws k) (hk : r.Touches env t.world k) :
    r.Draws k ∨ (serve env t.world r).2 = t.world := by
  have htext : t.world.text k = none := by simp [World.text, Store.get, hblank.look]
  have hminted : ∀ j u, k = refreshTokenKey j → ¬ Minted env t.log j u := by
    rintro j u rfl hm
    obtain ⟨e, he, i, hi, rfl⟩ := h.drawn j u hm
    exact hnot e he (.refreshToken hi)
  have hpresented : ∀ {T : String} {p : Claims}, t.world.refreshClaims env T = some p →
      k ≠ refreshTokenKey p.jti := by
    rintro T p hp rfl
    obtain ⟨a, u, hi, -⟩ := h.issuedTo_of_refreshClaims hp
    exact hminted p.jti u rfl ⟨a, T, p, hi, (issued_of_refreshClaims hp).2.1, rfl⟩
  cases hk with
  | register => exact .inl (.verification (by simp [Request.oneTimeTokens]))
  | verifyEmail =>
    right
    rw [serve_verifyEmail, htext]
  | requestReset => exact .inl (.resetLink (by simp [Request.oneTimeTokens]))
  | reset =>
    right
    rw [serve_resetPassword, htext]
  | revoked _ hj =>
    obtain ⟨v, -, hm⟩ := h.members _ _ hj
    exact absurd hm (hminted _ v rfl)
  | loginToken => exact .inl (.refreshToken (by simp [Request.jtis]))
  | refreshToken => exact .inl (.refreshToken (by simp [Request.jtis]))
  | refresh hclaims => exact absurd rfl (hpresented hclaims)
  | logout hclaims => exact absurd rfl (hpresented hclaims)
  | attempts => generalize hk : loginAttemptsKey _ = k at hg; cases hg <;> simp at hk
  | lock => generalize hk : loginLockKey _ = k at hg; cases hg <;> simp at hk
  | loginIndex => generalize hk : userTokensKey _ = k at hg; cases hg <;> simp at hk
  | revokedIndex => generalize hk : userTokensKey _ = k at hg; cases hg <;> simp at hk
  | refreshIndex => generalize hk : userTokensKey _ = k at hg; cases hg <;> simp at hk
  | logoutIndex => generalize hk : userTokensKey _ = k at hg; cases hg <;> simp at hk

theorem Sound.start (env : Env) (now : Nat) {users : List User} (husers : TableOk users) :
    Sound env (Trace.start now users) where
  ledger := .start env now husers
  once := oneTimeTokens_after env now users [] ⟨List.nodup_nil, List.nodup_nil⟩
  handed :=
    have hfresh : Fresh ([].flatMap Action.requests) := ⟨List.nodup_nil, List.nodup_nil⟩
    handedOut_after env now husers hfresh
  blank _ _ _ _ := ⟨fun _ => rfl, rfl⟩

theorem Sound.step (h : Sound env t) (a : Action) (hfresh : Fresh (t.requests ++ a.requests)) :
    Sound env (t.step env a) where
  ledger := h.ledger.step a hfresh
  once := by
    cases a with
    | request r => exact h.once.request hfresh (serve_effect env t.world r)
    | _ => exact h.once
  handed := by
    cases a with
    | request r => exact h.handed.request (serve_effect env t.world r)
    | _ => exact h.handed
  blank g k hg hnot := by
    cases a with
    | request r =>
      obtain ⟨hr, hlog⟩ := List.forall_mem_cons.mp hnot
      have hblank := h.blank g k hg hlog
      by_cases hk : r.Touches env t.world k
      · rcases h.ledger.touches_blank hlog hblank hg hk with hdraws | hsame
        · exact absurd hdraws hr
        · change Blank (serve env t.world r).2.redis k
          rw [hsame]
          exact hblank
      · exact hblank.of_sameAt ((serve_effect env t.world r).frame h.ledger.wellFormed hk)
    | _ => exact h.blank g k hg hnot

/-- There is nothing under the keys that a request draws. -/
theorem Sound.draws_blank (h : Sound env t) (hfresh : Fresh (t.requests ++ [r])) (hk : r.Draws k) :
    Blank t.world.redis k := by
  refine h.blank r k hk fun e he hdraws => ?_
  cases hdraws with
  | @verification x hx =>
    generalize hkey : emailVerifyKey x = k at hk
    cases hk with
    | verification hx' =>
      exact hfresh.oneTimeToken_new he hx hx' ((emailVerifyKey_inj _ _).mp hkey)
    | _ => simp at hkey
  | @resetLink x hx =>
    generalize hkey : pwdResetKey x = k at hk
    cases hk with
    | resetLink hx' => exact hfresh.oneTimeToken_new he hx hx' ((pwdResetKey_inj _ _).mp hkey)
    | _ => simp at hkey
  | @refreshToken j hj =>
    generalize hkey : refreshTokenKey j.str = k at hk
    cases hk with
    | refreshToken hj' =>
      exact hfresh.drawn_new he hj hj' (UUID.str_inj.mp ((refreshTokenKey_inj _ _).mp hkey))
    | _ => simp at hkey

end Blank

/-! ## An action elsewhere -/

section Elsewhere
variable {env : Env} {t : Trace} {r : Request} {e k : String} {u : UUID} {o : Except Exc Reply}
  {w' : World}

theorem Other.email_eq (h : ¬ Other t.world.users e u) {row : User} (hrow : row ∈ t.world.users)
    (hid : row.id = u) : row.email = e := by
  by_contra hne
  exact h ⟨row, hrow, hid, hne⟩

/-- The account that an email finds has that email. -/
theorem userByEmail_email (hlower : ∀ s, env.lower (env.lower s) = env.lower s) {w : World}
    {email : String} {user : User} (h : w.userByEmail env (env.lower email) = some user) :
    user ∈ w.users ∧ user.deletedAt = none ∧ user.email = env.lower email := by
  have hfound := List.find?_some h
  simp only [Bool.and_eq_true, Option.isNone_iff_eq_none, beq_iff_eq, hlower] at hfound
  exact ⟨List.mem_of_find?_eq_some h, hfound⟩

/-- Beside the counter and the lock, what is kept for an address is kept for an account. -/
theorem BoxKey.owner (h : BoxKey env t e k) (hattempts : k ≠ loginAttemptsKey e)
    (hlock : k ≠ loginLockKey e) : ∃ u, ¬ Other t.world.users e u ∧ KeptFor env t.log e u k :=
  (h.resolve_left hattempts).resolve_left hlock

/-- A request elsewhere does not touch what is kept for the address. -/
theorem Sound.not_touches (h : Sound env t) (hlower : ∀ s, env.lower (env.lower s) = env.lower s)
    (hfresh : Fresh (t.requests ++ [r])) (helse : r.Elsewhere env t e) (hbox : BoxKey env t e k) :
    ¬ r.Touches env t.world k := by
  intro hk
  have hdraws : ¬ r.Draws k := by
    intro hdraws
    rcases hbox with rfl | rfl | ⟨u, -, hkept⟩
    · generalize hkey : loginAttemptsKey e = k at hdraws
      cases hdraws <;> simp at hkey
    · generalize hkey : loginLockKey e = k at hdraws
      cases hdraws <;> simp at hkey
    · exact hkept.not_draws h.ledger h.once hfresh hdraws
  have hreset : ∀ {x newPassword salt : String} {v u : UUID},
      Request.Elsewhere env t e (.resetPassword x newPassword salt) →
      t.world.text (pwdResetKey x) = some v.str → ¬ Other t.world.users e u → v ≠ u := by
    rintro x newPassword salt v u helse htext hu rfl
    obtain ⟨-, -, -, hx⟩ := h.ledger.resetCell htext
    exact hu (helse v hx)
  have hpair : ∀ {T : String} {p : Claims} {u : UUID},
      (∀ a b u, IssuedTo env t.log a b u → T = a ∨ T = b → Other t.world.users e u) →
      t.world.refreshClaims env T = some p → ¬ Other t.world.users e u →
      p.sub ≠ u.str ∧ ¬ Minted env t.log p.jti u := by
    intro T p u helse hp hu
    obtain ⟨a, v, hi, hv⟩ := h.ledger.issuedTo_of_refreshClaims hp
    have hother := helse a T v hi (.inr rfl)
    constructor
    · intro hsub
      obtain rfl := UUID.str_inj.mp (hv.symm.trans hsub)
      exact hu hother
    · intro hm
      obtain rfl := h.ledger.owner p.jti u v hm ⟨a, T, p, hi, (issued_of_refreshClaims hp).2.1, rfl⟩
      exact hu hother
  cases hk with
  | register => exact hdraws (.verification (by simp [Request.oneTimeTokens]))
  | requestReset => exact hdraws (.resetLink (by simp [Request.oneTimeTokens]))
  | loginToken => exact hdraws (.refreshToken (by simp [Request.jtis]))
  | refreshToken => exact hdraws (.refreshToken (by simp [Request.jtis]))
  | verifyEmail =>
    obtain ⟨u, hu, hkept⟩ := hbox.owner (by simp) (by simp)
    exact hu (helse u (keptFor_verification.mp hkept))
  | reset =>
    obtain ⟨u, hu, hkept⟩ := hbox.owner (by simp) (by simp)
    exact hu (helse u (keptFor_resetLink.mp hkept))
  | attempts =>
    rcases hbox with hkey | hkey | ⟨u, hu, hkept⟩
    · exact helse ((loginAttemptsKey_inj _ _).mp hkey)
    · simp at hkey
    · exact helse (keptFor_attempts.mp hkept).symm
  | lock =>
    rcases hbox with hkey | hkey | ⟨u, hu, hkept⟩
    · simp at hkey
    · exact helse ((loginLockKey_inj _ _).mp hkey)
    · exact helse (keptFor_lock.mp hkept).symm
  | loginIndex huser =>
    obtain ⟨hmem, -, hemail⟩ := userByEmail_email hlower huser
    obtain ⟨u, hu, hkept⟩ := hbox.owner (by simp) (by simp)
    exact helse (hemail.symm.trans (Other.email_eq hu hmem (keptFor_index.mp hkept).symm))
  | revoked htext hj =>
    obtain ⟨u, hu, hkept⟩ := hbox.owner (by simp) (by simp)
    obtain ⟨v, hv, hm⟩ := h.ledger.members _ _ hj
    obtain rfl := (userTokensKey_inj _ _).mp hv
    exact hreset helse htext hu (h.ledger.owner _ _ _ hm (keptFor_refreshToken.mp hkept))
  | revokedIndex htext =>
    obtain ⟨u, hu, hkept⟩ := hbox.owner (by simp) (by simp)
    exact hreset helse htext hu (keptFor_index.mp hkept).symm
  | refresh hclaims =>
    obtain ⟨u, hu, hkept⟩ := hbox.owner (by simp) (by simp)
    exact (hpair helse hclaims hu).2 (keptFor_refreshToken.mp hkept)
  | logout hclaims =>
    obtain ⟨u, hu, hkept⟩ := hbox.owner (by simp) (by simp)
    exact (hpair helse hclaims hu).2 (keptFor_refreshToken.mp hkept)
  | refreshIndex hclaims hsub =>
    obtain ⟨u, hu, hkept⟩ := hbox.owner (by simp) (by simp)
    exact (hpair helse hclaims hu).1 ((keptFor_index.mp hkept) ▸ hsub)
  | logoutIndex hclaims hsub =>
    obtain ⟨u, hu, hkept⟩ := hbox.owner (by simp) (by simp)
    exact (hpair helse hclaims hu).1 ((keptFor_index.mp hkept) ▸ hsub)

theorem Other.step (h : Other t.world.users e u) (a : Action) :
    Other (t.step env a).world.users e u := by
  obtain ⟨row, hrow, hid, hemail⟩ := h
  obtain ⟨row', hrow', hid', hemail'⟩ := t.lives_on_step env a hrow
  exact ⟨row', hrow', hid'.trans hid, hemail' ▸ hemail⟩

/-- Rows that keep their email, and are not touched where it is `e`. -/
theorem filter_map_other {users : List User} {g : User → User}
    (hemail : ∀ row ∈ users, (g row).email = row.email)
    (hsame : ∀ row ∈ users, row.email = e → g row = row) :
    (users.map g).filter (fun row => row.email = e) = users.filter fun row => row.email = e := by
  have hcomp : (users.filter fun row => (g row).email = e) = users.filter fun row => row.email = e :=
    List.filter_congr fun row hrow => by rw [hemail row hrow]
  rw [List.filter_map]
  change (users.filter fun row => (g row).email = e).map g = _
  rw [hcomp]
  calc (users.filter fun row => row.email = e).map g
      = (users.filter fun row => row.email = e).map id := List.map_congr_left fun row hrow =>
        hsame row (List.mem_filter.mp hrow).1 (of_decide_eq_true (List.mem_filter.mp hrow).2)
    _ = users.filter fun row => row.email = e := List.map_id _

/-- An account with another address is none of those with the address. -/
theorem Other.id_ne (h : Other t.world.users e u) (htable : TableOk t.world.users) {row : User}
    (hrow : row ∈ t.world.users) (hemail : row.email = e) : row.id ≠ u := by
  rintro rfl
  obtain ⟨other, hother, hid, hne⟩ := h
  exact hne (htable.ids.eq_of_key hother hrow hid ▸ hemail)

/-- Nor does it change the rows of the address. -/
theorem Sound.rows_elsewhere (h : Sound env t) {a : Action} (helse : a.Elsewhere env t e) :
    (t.step env a).world.users.filter (fun row => row.email = e) =
      t.world.users.filter fun row => row.email = e := by
  cases a with
  | wait n => rfl
  | setActive id isActive =>
    refine filter_map_other (fun row _ => ?_) fun row hrow hemail => ?_
    · split <;> rfl
    · exact if_neg (Other.id_ne helse h.ledger.table hrow hemail)
  | softDelete id =>
    refine filter_map_other (fun row _ => ?_) fun row hrow hemail => ?_
    · split <;> rfl
    · exact if_neg fun hand => Other.id_ne helse h.ledger.table hrow hemail hand.1
  | request r =>
    change r.Elsewhere env t e at helse
    change ((serve env t.world r).2.users.filter _) = _
    have he := serve_effect env t.world r
    generalize (serve env t.world r).1 = o at he
    generalize (serve env t.world r).2 = w' at he ⊢
    cases he with
    | registered email password fullName d hnone haccepts =>
      have hne : env.lower email ≠ e := helse
      simp [List.filter_append, World.newUser, hne]
    | verified x userId user htext huser =>
      obtain ⟨-, -, -, hx⟩ := h.ledger.verifyCell htext
      obtain rfl := World.id_of_userById huser
      refine filter_map_other (fun row _ => (applyRow_keeps _ row _).2.1) fun row hrow hemail => ?_
      exact UserWrite.applyRow_of_ne (Other.id_ne (helse _ hx) h.ledger.table hrow hemail)
    | reset x newPassword salt userId user htext huser =>
      obtain ⟨-, -, -, hx⟩ := h.ledger.resetCell htext
      obtain rfl := World.id_of_userById huser
      refine filter_map_other (fun row _ => (applyRow_keeps _ row _).2.1) fun row hrow hemail => ?_
      exact UserWrite.applyRow_of_ne (Other.id_ne (helse _ hx) h.ledger.table hrow hemail)
    | _ => rfl

/-- What it hands out as a one-time token is for an account with another address. -/
theorem gives_elsewhere (hlower : ∀ s, env.lower (env.lower s) = env.lower s)
    (helse : r.Elsewhere env t e) {b : Bool} {x : String}
    (hg : (⟨t.world, r, (serve env t.world r).1⟩ : Entry).gives b x u) :
    Other (t.step env (.request r)).world.users e u := by
  obtain ⟨user, rfl, ho⟩ := hg
  have he := serve_effect env t.world r
  change Other (serve env t.world r).2.users e user.id
  dsimp only at ho
  generalize (serve env t.world r).1 = o at he ho
  generalize (serve env t.world r).2 = w' at he ⊢
  cases b with
  | true =>
    cases he <;> cases ho
    exact ⟨_, List.mem_append_right _ (List.mem_singleton_self _), rfl, helse⟩
  | false =>
    cases he with
    | resetRequested email token row huser =>
      cases ho
      obtain ⟨hmem, -, hemail⟩ := userByEmail_email hlower huser
      exact ⟨user, hmem, rfl, hemail ▸ helse⟩
    | _ => cases ho

/-- And a pair as well. -/
theorem issuedTo_elsewhere (hlower : ∀ s, env.lower (env.lower s) = env.lower s)
    (helse : r.Elsewhere env t e) {a T : String}
    (hi : IssuedTo env (⟨t.world, r, o⟩ :: t.log) a T u) :
    IssuedTo env t.log a T u ∨ Other t.world.users e u := by
  cases hi with
  | @login _ _ email password _ _ d user hr ho huser =>
    obtain rfl : r = _ := hr
    obtain ⟨hmem, -, hemail⟩ := userByEmail_email hlower huser
    exact .inr ⟨user, hmem, rfl, hemail ▸ helse⟩
  | @refresh _ _ a₀ T₀ _ _ d _ hr ho hu =>
    obtain rfl : r = _ := hr
    exact .inr (helse a₀ T₀ u hu (.inr rfl))
  | earlier hi => exact .inl hi

end Elsewhere

/-! ## Two traces that are alike for one address -/

/-- The second trace has fewer accounts, and the same of everything about the address `e`. -/
structure AlikeFor (env : Env) (e : String) (t t' : Trace) : Prop where
  now : t'.world.now = t.world.now
  rows : t'.world.users.filter (fun row => row.email = e) =
    t.world.users.filter fun row => row.email = e
  fewer : ∀ row ∈ t'.world.users, LivesOn t.world.users row
  once : ∀ b x u, ¬ Other t.world.users e u → (OneTime t'.log b x u ↔ OneTime t.log b x u)
  pairs : ∀ a T u, ¬ Other t.world.users e u → (IssuedTo env t'.log a T u ↔ IssuedTo env t.log a T u)
  keys : ∀ k, BoxKey env t e k → SameAt t.world.redis t'.world.redis k

theorem AlikeFor.refl (env : Env) (e : String) (t : Trace) : AlikeFor env e t t where
  now := rfl
  rows := rfl
  fewer row hrow := ⟨row, hrow, rfl, rfl⟩
  once _ _ _ _ := .rfl
  pairs _ _ _ _ := .rfl
  keys _ _ := .rfl

section Alike
variable {env : Env} {t t' : Trace} {r : Request} {e k : String} {u : UUID}

/-- What is kept for an address after a request was so before, or the request has drawn it
and given it to an account of the address. -/
theorem Sound.boxKey_of_request (h : Sound env t) (hk : BoxKey env (t.step env (.request r)) e k) :
    BoxKey env t e k ∨ r.Draws k := by
  have he := serve_effect env t.world r
  rcases hk with rfl | rfl | ⟨u, hu, hkept⟩
  · exact .inl (.inl rfl)
  · exact .inl (.inr (.inl rfl))
  · have hu' : ¬ Other t.world.users e u := fun hother => hu (hother.step _)
    cases hkept with
    | attempts => exact .inl (.inl rfl)
    | lock => exact .inl (.inr (.inl rfl))
    | index => exact .inl (.inr (.inr ⟨u, hu', .index⟩))
    | @verification x hx =>
      rcases oneTime_cons (b := true).mp hx with hg | hx
      · exact .inr (.verification (he.drawn hg))
      · exact .inl (.inr (.inr ⟨u, hu', .verification hx⟩))
    | @resetLink x hx =>
      rcases oneTime_cons (b := false).mp hx with hg | hx
      · exact .inr (.resetLink (he.drawn hg))
      · exact .inl (.inr (.inr ⟨u, hu', .resetLink hx⟩))
    | @refreshToken j hj =>
      rcases h.ledger.minted_cases he hj with hj | ⟨d, hd, rfl, -⟩
      · exact .inl (.inr (.inr ⟨u, hu', .refreshToken hj⟩))
      · exact .inr (.refreshToken hd)

/-- What is kept for an address in one trace is so in another that knows as much about it. -/
theorem BoxKey.mono (hothers : ∀ u, ¬ Other t.world.users e u → ¬ Other t'.world.users e u)
    (honce : ∀ b x u, ¬ Other t.world.users e u → OneTime t.log b x u → OneTime t'.log b x u)
    (hpairs : ∀ a T u, ¬ Other t.world.users e u → IssuedTo env t.log a T u → IssuedTo env t'.log a T u)
    (hk : BoxKey env t e k) : BoxKey env t' e k := by
  rcases hk with hk | hk | ⟨u, hu, hkept⟩
  · exact .inl hk
  · exact .inr (.inl hk)
  · refine .inr (.inr ⟨u, hothers u hu, ?_⟩)
    cases hkept with
    | attempts => exact .attempts
    | lock => exact .lock
    | index => exact .index
    | @verification x hx => exact .verification (honce true x u hu hx)
    | @resetLink x hx => exact .resetLink (honce false x u hu hx)
    | refreshToken hj =>
      obtain ⟨a, T, p, hi, hp⟩ := hj
      exact .refreshToken ⟨a, T, p, hpairs a T u hu hi, hp⟩

/-- An action elsewhere in the first trace only. -/
theorem AlikeFor.elsewhere (h : AlikeFor env e t t') (hsound : Sound env t)
    (hlower : ∀ s, env.lower (env.lower s) = env.lower s) {a : Action}
    (hfresh : Fresh (t.requests ++ a.requests)) (helse : a.Elsewhere env t e) :
    AlikeFor env e (t.step env a) t' := by
  have hothers : ∀ u, ¬ Other (t.step env a).world.users e u → ¬ Other t.world.users e u :=
    fun u hu hother => hu (hother.step a)
  have honce : ∀ b x u, ¬ Other (t.step env a).world.users e u →
      (OneTime t.log b x u ↔ OneTime (t.step env a).log b x u) := by
    intro b x u hu
    cases a with
    | request r =>
      exact (oneTime_cons.trans (or_iff_right fun hg => hu (gives_elsewhere hlower helse hg))).symm
    | _ => rfl
  have hpairs : ∀ a' T u, ¬ Other (t.step env a).world.users e u →
      (IssuedTo env t.log a' T u ↔ IssuedTo env (t.step env a).log a' T u) := by
    intro a' T u hu
    cases a with
    | request r =>
      exact ⟨.earlier, fun hi => (issuedTo_elsewhere hlower helse hi).resolve_right (hothers u hu)⟩
    | _ => rfl
  have hkeys : ∀ k, BoxKey env t e k → SameAt t.world.redis (t.step env a).world.redis k := by
    intro k hk
    cases a with
    | request r =>
      exact (serve_effect env t.world r).frame hsound.ledger.wellFormed
        (hsound.not_touches hlower hfresh helse hk)
    | _ => exact .rfl
  refine ⟨?_, h.rows.trans (hsound.rows_elsewhere helse).symm, fun row hrow => (h.fewer row hrow).step a,
    fun b x u hu => (h.once b x u (hothers u hu)).trans (honce b x u hu),
    fun a' T u hu => (h.pairs a' T u (hothers u hu)).trans (hpairs a' T u hu), fun k hk => ?_⟩
  · cases a with
    | wait n => exact helse.elim
    | request r => exact h.now.trans (serve_effect env t.world r).now.symm
    | _ => exact h.now
  · have hbox : BoxKey env t e k :=
      hk.mono hothers (fun b x u hu => (honce b x u hu).mpr) fun a' T u hu => (hpairs a' T u hu).mpr
    exact (hkeys k hbox).symm.trans (h.keys k hbox)

/-! ### An action that is not elsewhere -/

/-- A lookup that finds only rows of the address finds the same row. -/
theorem AlikeFor.find?_eq (h : AlikeFor env e t t') {p : User → Bool}
    (hp : ∀ row ∈ t.world.users, p row = true → row.email = e)
    (hp' : ∀ row ∈ t'.world.users, p row = true → row.email = e) :
    t'.world.users.find? p = t.world.users.find? p := by
  have hfilter : ∀ users : List User, (∀ row ∈ users, p row = true → row.email = e) →
      users.find? p = (users.filter fun row => row.email = e).find? p := by
    intro users hp
    induction users with
    | nil => rfl
    | cons row users ih =>
      have ih := ih fun other hother => hp other (List.mem_cons_of_mem _ hother)
      by_cases hrow : p row = true
      · simp [hp row List.mem_cons_self hrow, hrow]
      · by_cases hemail : row.email = e <;> simp [hrow, hemail, ih]
  rw [hfilter _ hp, hfilter _ hp', h.rows]

theorem AlikeFor.not_other (h : AlikeFor env e t t') (hu : ¬ Other t.world.users e u) :
    ¬ Other t'.world.users e u := by
  rintro ⟨row, hrow, hid, hemail⟩
  obtain ⟨row', hrow', hid', hemail'⟩ := h.fewer row hrow
  exact hu ⟨row', hrow', hid'.trans hid, hemail' ▸ hemail⟩

theorem AlikeFor.userById (h : AlikeFor env e t t') (hu : ¬ Other t.world.users e u) :
    t'.world.userById u = t.world.userById u := by
  refine h.find?_eq (fun row hrow hp => ?_) fun row hrow hp => ?_
  · simp only [Bool.and_eq_true, beq_iff_eq] at hp
    exact Other.email_eq hu hrow hp.2
  · simp only [Bool.and_eq_true, beq_iff_eq] at hp
    exact Other.email_eq (h.not_other hu) hrow hp.2

theorem AlikeFor.userByEmail (h : AlikeFor env e t t')
    (hlower : ∀ s, env.lower (env.lower s) = env.lower s) {email : String} (hemail : env.lower email = e) :
    t'.world.userByEmail env (env.lower email) = t.world.userByEmail env (env.lower email) := by
  subst hemail
  refine h.find?_eq (fun row hrow hp => ?_) fun row hrow hp => ?_
  · simp only [Bool.and_eq_true, beq_iff_eq, hlower] at hp
    exact hp.2
  · simp only [Bool.and_eq_true, beq_iff_eq, hlower] at hp
    exact hp.2

/-- To a request for an account of the address the two worlds look the same. -/
theorem AlikeFor.looksAlike (h : AlikeFor env e t t') (hsound : Sound env t) (hsound' : Sound env t')
    (hlower : ∀ s, env.lower (env.lower s) = env.lower s) (hfresh : Fresh (t.requests ++ [r]))
    (hfresh' : Fresh (t'.requests ++ [r])) (hc : Concerns env t e u r)
    (hu : ¬ Other t.world.users e u) : LooksAlike env r e u t.world t'.world where
  now := h.now
  keys k hk := by
    rcases hc.touches hsound.ledger hsound.once hlower hk with hkept | hdraws
    · exact h.keys k (.inr (.inr ⟨u, hu, hkept⟩))
    · exact (hsound.draws_blank hfresh hdraws).sameAt (hsound'.draws_blank hfresh' hdraws)
  byEmail _ := h.userByEmail hlower
  byId := h.userById hu
  accepts row hemail hid := by
    rw [accepts_eq, accepts_eq]
    congr 2
    refine h.find?_eq (fun other hother hp => ?_) fun other hother hp => ?_
    · simp only [Bool.or_eq_true, Bool.and_eq_true, beq_iff_eq] at hp
      rcases hp with hp | hp
      · exact Other.email_eq hu hother (hp.trans hid)
      · exact hp.2.trans hemail
    · simp only [Bool.or_eq_true, Bool.and_eq_true, beq_iff_eq] at hp
      rcases hp with hp | hp
      · exact Other.email_eq (h.not_other hu) hother (hp.trans hid)
      · exact hp.2.trans hemail
  claims T hT := by
    obtain ⟨a, b, hi, hab⟩ := hc.presented hT
    obtain ⟨ha, hb⟩ := hsound.handed a b u hi
    obtain ⟨ha', hb'⟩ := hsound'.handed a b u ((h.pairs a b u hu).mpr hi)
    refine refreshClaims_congr h.now ?_
    rcases hab with rfl | rfl
    · exact ⟨fun _ => ha, fun _ => ha'⟩
    · exact ⟨fun _ => hb, fun _ => hb'⟩

/-- A request that is not elsewhere concerns an account of the address, or its email finds none. -/
theorem concerns_of_not_elsewhere (htable : TableOk t.world.users)
    (hids : ∀ id ∈ r.userIds, ∀ row ∈ t.world.users, row.id ≠ id)
    (hlower : ∀ s, env.lower (env.lower s) = env.lower s) (hhere : ¬ r.Elsewhere env t e) :
    (∃ u, Concerns env t e u r ∧ ¬ Other t.world.users e u) ∨
      ∃ email, env.lower email = e ∧ t.world.userByEmail env (env.lower email) = none ∧
        ((∃ password d, r = .login email password d) ∨ ∃ x, r = .requestPasswordReset email x) := by
  have hemailOf : ∀ {u}, ¬ Other t.world.users e u → ∀ row ∈ t.world.users, row.id = u → row.email = e :=
    fun hu row hrow hid => Other.email_eq hu hrow hid
  have hfound : ∀ {email : String}, env.lower email = e →
      t.world.userByEmail env (env.lower email) = none ∨ ∃ u, ¬ Other t.world.users e u ∧
        ∀ row ∈ t.world.users, row.deletedAt = none → row.email = e → row.id = u := by
    intro email hemail
    cases huser : t.world.userByEmail env (env.lower email) with
    | none => exact .inl rfl
    | some user =>
      obtain ⟨hmem, hlive, hmail⟩ := userByEmail_email hlower huser
      refine .inr ⟨user.id, ?_, fun row hrow hdeleted he => ?_⟩
      · rintro ⟨row, hrow, hid, hne⟩
        exact hne (htable.ids.eq_of_key hrow hmem hid ▸ hmail.trans hemail)
      · rw [htable.emails row hrow user hmem hdeleted hlive (he.trans (hmail.trans hemail).symm)]
  cases r with
  | register email password fullName d =>
    refine .inl ⟨d.userId, .register (not_not.mp hhere) rfl, ?_⟩
    rintro ⟨row, hrow, hid, -⟩
    exact hids d.userId (by simp [Request.userIds]) row hrow hid
  | login email password d =>
    have hemail : env.lower email = e := not_not.mp hhere
    rcases hfound hemail with hnone | ⟨u, hu, hid⟩
    · exact .inr ⟨email, hemail, hnone, .inl ⟨password, d, rfl⟩⟩
    · exact .inl ⟨u, .login hemail hid, hu⟩
  | requestPasswordReset email x =>
    have hemail : env.lower email = e := not_not.mp hhere
    rcases hfound hemail with hnone | ⟨u, hu, hid⟩
    · exact .inr ⟨email, hemail, hnone, .inr ⟨x, rfl⟩⟩
    · exact .inl ⟨u, .requestPasswordReset hemail hid, hu⟩
  | verifyEmail x =>
    simp only [Request.Elsewhere, not_forall] at hhere
    obtain ⟨u, hx, hu⟩ := hhere
    exact .inl ⟨u, .verifyEmail hx (hemailOf hu), hu⟩
  | resetPassword x newPassword salt =>
    simp only [Request.Elsewhere, not_forall] at hhere
    obtain ⟨u, hx, hu⟩ := hhere
    exact .inl ⟨u, .resetPassword hx (hemailOf hu), hu⟩
  | refreshAccessToken T d =>
    simp only [Request.Elsewhere, not_forall] at hhere
    obtain ⟨a, b, u, hi, hab, hu⟩ := hhere
    exact .inl ⟨u, .refreshAccessToken hi hab (hemailOf hu), hu⟩
  | logout T =>
    simp only [Request.Elsewhere, not_forall] at hhere
    obtain ⟨a, b, u, hi, hab, hu⟩ := hhere
    exact .inl ⟨u, .logout hi hab (hemailOf hu), hu⟩

instance : Nonempty UUID := ⟨⟨"00000000-0000-0000-0000-000000000000", by decide⟩⟩

/-- A login or a reset request for an email that no account has does the same in both. -/
theorem AlikeFor.served_unknown (h : AlikeFor env e t t')
    (hlower : ∀ s, env.lower (env.lower s) = env.lower s) {email : String} (hemail : env.lower email = e)
    (hnone : t.world.userByEmail env (env.lower email) = none)
    (hr : (∃ password d, r = .login email password d) ∨ ∃ x, r = .requestPasswordReset email x) (u : UUID) :
    ServedAlike e u t.world t'.world (serve env t.world r) (serve env t'.world r) := by
  have hnone' : t'.world.userByEmail env (env.lower email) = none :=
    (h.userByEmail hlower hemail).trans hnone
  rcases hr with ⟨password, d, rfl⟩ | ⟨x, rfl⟩
  · subst hemail
    have httl : t'.world.redis.ttl t'.world.now (loginLockKey (env.lower email)) =
        t.world.redis.ttl t.world.now (loginLockKey (env.lower email)) := by
      rw [h.now]
      exact (h.keys _ (.inr (.inl rfl))).ttl
    rw [serve_login, serve_login]
    simp only [httl, hnone, hnone', Option.filter_none]
    split
    · exact .still _
    · rcases failedAttempt_alike env h.now.symm (h.keys _ (.inl rfl)) with
        ⟨hf, hf'⟩ | ⟨redis, redis', hf, hf', hsame⟩
      · rw [hf, hf']
        exact .still _
      · rw [hf, hf']
        exact ⟨rfl, ⟨none, by simp, rfl, rfl⟩, hsame, [], rfl, rfl⟩
  · rw [serve_requestPasswordReset, serve_requestPasswordReset, hnone, hnone']
    exact .still _

/-- A request that is not elsewhere is served alike. -/
theorem AlikeFor.served (h : AlikeFor env e t t') (hsound : Sound env t) (hsound' : Sound env t')
    (hlower : ∀ s, env.lower (env.lower s) = env.lower s) (hfresh : Fresh (t.requests ++ [r]))
    (hfresh' : Fresh (t'.requests ++ [r])) (hids : ∀ id ∈ r.userIds, ∀ row ∈ t.world.users, row.id ≠ id)
    (hhere : ¬ r.Elsewhere env t e) :
    ∃ u, ServedAlike e u t.world t'.world (serve env t.world r) (serve env t'.world r) := by
  rcases concerns_of_not_elsewhere hsound.ledger.table hids hlower hhere with
    ⟨u, hc, hu⟩ | ⟨email, hemail, hnone, hr⟩
  · exact ⟨u, serve_alike hsound.ledger hsound.once hc
      (h.looksAlike hsound hsound' hlower hfresh hfresh' hc hu)⟩
  · exact ⟨Classical.arbitrary UUID, h.served_unknown hlower hemail hnone hr _⟩

/-- A write for an account of the address changes the same rows of it in both tables. -/
theorem filter_written {now : Nat} {users : List User} {x : Option UserWrite}
    (hx : ∀ write ∈ x, ∀ row ∈ write.added, row.email = e) :
    (written now x users).filter (fun row => row.email = e) =
      written now x (users.filter fun row => row.email = e) := by
  cases x with
  | none => rfl
  | some write =>
    have hadded : write.added.filter (fun row => row.email = e) = write.added :=
      List.filter_eq_self.mpr fun row hrow => decide_eq_true (hx write rfl row hrow)
    simp only [written, Option.elim_some, UserWrite.apply_eq, List.filter_append, hadded, List.filter_map]
    congr 2
    refine List.filter_congr fun row _ => ?_
    rw [Function.comp_apply, (applyRow_keeps now row write).2.1]

theorem livesOn_written {now : Nat} {users users' : List User} {x : Option UserWrite}
    (h : ∀ row ∈ users', LivesOn users row) : ∀ row ∈ written now x users', LivesOn (written now x users) row := by
  intro row hrow
  cases x with
  | none => exact h row hrow
  | some write =>
    simp only [written, Option.elim_some, UserWrite.apply_eq] at hrow ⊢
    rcases List.mem_append.mp hrow with hrow | hrow
    · obtain ⟨row', hrow', rfl⟩ := List.mem_map.mp hrow
      obtain ⟨row'', hrow'', hid, hemail⟩ := h row' hrow'
      refine ⟨_, List.mem_append_left _ (List.mem_map_of_mem hrow''), ?_⟩
      rw [(applyRow_keeps now row'' write).1, (applyRow_keeps now row'' write).2.1,
        (applyRow_keeps now row' write).1, (applyRow_keeps now row' write).2.1]
      exact ⟨hid, hemail⟩
    · exact ⟨row, List.mem_append_right _ hrow, rfl, rfl⟩

/-- A request that is not elsewhere, in both traces. -/
theorem AlikeFor.request (h : AlikeFor env e t t') (hsound : Sound env t) (hsound' : Sound env t')
    (hlower : ∀ s, env.lower (env.lower s) = env.lower s) (hfresh : Fresh (t.requests ++ [r]))
    (hfresh' : Fresh (t'.requests ++ [r])) (hids : ∀ id ∈ r.userIds, ∀ row ∈ t.world.users, row.id ≠ id)
    (hhere : ¬ r.Elsewhere env t e) :
    (serve env t'.world r).1 = (serve env t.world r).1 ∧
      AlikeFor env e (t.step env (.request r)) (t'.step env (.request r)) := by
  obtain ⟨u, houtcome, ⟨x, hx, husers, husers'⟩, hredis, -⟩ :=
    h.served hsound hsound' hlower hfresh hfresh' hids hhere
  have hothers : ∀ v, ¬ Other (t.step env (.request r)).world.users e v → ¬ Other t.world.users e v :=
    fun v hv hother => hv (hother.step _)
  have hadded : ∀ write ∈ x, ∀ row ∈ write.added, row.email = e := fun write hwrite row hrow =>
    (hx write hwrite).email row (List.mem_append_right _ hrow)
      ((UserWrite.id_of_added hrow).trans (hx write hwrite).userId)
  refine ⟨houtcome, ?_, ?_, ?_, ?_, ?_, ?_⟩
  · exact (serve_effect env t'.world r).now.trans (h.now.trans (serve_effect env t.world r).now.symm)
  · change (serve env t'.world r).2.users.filter _ = (serve env t.world r).2.users.filter _
    rw [husers, husers', filter_written hadded, filter_written hadded, h.rows]
  · change ∀ row ∈ (serve env t'.world r).2.users, LivesOn (serve env t.world r).2.users row
    rw [husers, husers']
    exact livesOn_written h.fewer
  · intro b x v hv
    have hgives : (⟨t'.world, r, (serve env t'.world r).1⟩ : Entry).gives b x v ↔
        (⟨t.world, r, (serve env t.world r).1⟩ : Entry).gives b x v := by
      simp only [Entry.gives, houtcome]
    exact oneTime_cons.trans ((or_congr hgives (h.once b x v (hothers v hv))).trans oneTime_cons.symm)
  · intro a T v hv
    have hpairs := h.pairs a T v (hothers v hv)
    constructor
    · intro hi
      cases hi with
      | login hr ho huser =>
        obtain rfl : r = _ := hr
        have huser' := h.userByEmail hlower (not_not.mp hhere)
        exact .login rfl (houtcome ▸ ho) (huser'.symm.trans huser)
      | refresh hr ho hu => exact .refresh hr (houtcome ▸ ho) ((h.pairs _ _ v (hothers v hv)).mp hu)
      | earlier hi => exact .earlier (hpairs.mp hi)
    · intro hi
      cases hi with
      | login hr ho huser =>
        obtain rfl : r = _ := hr
        have huser' := h.userByEmail hlower (not_not.mp hhere)
        exact .login rfl (houtcome.trans ho) (huser'.trans huser)
      | refresh hr ho hu =>
        exact .refresh hr (houtcome.trans ho) ((h.pairs _ _ v (hothers v hv)).mpr hu)
      | earlier hi => exact .earlier (hpairs.mpr hi)
  · intro k hk
    rcases hsound.boxKey_of_request hk with hk | hdraws
    · exact hredis k (h.keys k hk)
    · exact hredis k ((hsound.draws_blank hfresh hdraws).sameAt (hsound'.draws_blank hfresh' hdraws))

/-- A change to the table that sees no emails, in both traces. -/
theorem AlikeFor.map (h : AlikeFor env e t t') {g : User → User}
    (hg : ∀ row, (g row).id = row.id ∧ (g row).email = row.email) :
    AlikeFor env e { t with world := { t.world with users := t.world.users.map g } }
      { t' with world := { t'.world with users := t'.world.users.map g } } := by
  have hothers : ∀ u, ¬ Other (t.world.users.map g) e u → ¬ Other t.world.users e u := by
    rintro u hu ⟨row, hrow, hid, hemail⟩
    exact hu ⟨g row, List.mem_map_of_mem hrow, (hg row).1.trans hid, (hg row).2 ▸ hemail⟩
  have hfilter : ∀ users : List User, (users.map g).filter (fun row => row.email = e) =
      (users.filter fun row => row.email = e).map g := by
    intro users
    rw [List.filter_map]
    congr 1
    refine List.filter_congr fun row _ => ?_
    rw [Function.comp_apply, (hg row).2]
  refine ⟨h.now, ?_, ?_, fun b x u hu => h.once b x u (hothers u hu),
    fun a T u hu => h.pairs a T u (hothers u hu), fun k hk => h.keys k ?_⟩
  · exact (hfilter _).trans ((congrArg _ h.rows).trans (hfilter _).symm)
  · intro row hrow
    obtain ⟨row', hrow', rfl⟩ := List.mem_map.mp hrow
    obtain ⟨row'', hrow'', hid, hemail⟩ := h.fewer row' hrow'
    refine ⟨g row'', List.mem_map_of_mem hrow'', ?_⟩
    rw [(hg row'').1, (hg row'').2, (hg row').1, (hg row').2]
    exact ⟨hid, hemail⟩
  · exact BoxKey.mono (t := { t with world := { t.world with users := t.world.users.map g } })
      hothers (fun b x u _ hx => hx) (fun a T u _ hi => hi) hk

/-- An action that is not elsewhere, in both traces. -/
theorem AlikeFor.step (h : AlikeFor env e t t') (hsound : Sound env t) (hsound' : Sound env t')
    (hlower : ∀ s, env.lower (env.lower s) = env.lower s) {a : Action}
    (hfresh : Fresh (t.requests ++ a.requests)) (hfresh' : Fresh (t'.requests ++ a.requests))
    (hids : ∀ r ∈ a.requests, ∀ id ∈ r.userIds, ∀ row ∈ t.world.users, row.id ≠ id)
    (hhere : ¬ a.Elsewhere env t e) : AlikeFor env e (t.step env a) (t'.step env a) := by
  cases a with
  | wait n => exact ⟨congrArg (· + n) h.now, h.rows, h.fewer, h.once, h.pairs, h.keys⟩
  | request r =>
    exact (h.request hsound hsound' hlower hfresh hfresh' (hids r (List.mem_singleton_self r)) hhere).2
  | setActive id isActive =>
    have hmap := h.map (g := fun row =>
      if row.id = id then { row with isActive := isActive, updatedAt := t.world.now } else row)
      fun row => (by split <;> exact ⟨rfl, rfl⟩)
    have hnow : t'.world.setActive id isActive = { t'.world with users := t'.world.users.map fun row =>
        if row.id = id then { row with isActive := isActive, updatedAt := t.world.now } else row } := by
      rw [← h.now]
      rfl
    change AlikeFor env e _ { t' with world := t'.world.setActive id isActive }
    rw [hnow]
    exact hmap
  | softDelete id =>
    have hmap := h.map (g := fun row =>
      if row.id = id ∧ row.deletedAt = none then
        { row with deletedAt := some t.world.now, updatedAt := t.world.now } else row)
      fun row => (by split <;> exact ⟨rfl, rfl⟩)
    have hnow : t'.world.softDelete id = { t'.world with users := t'.world.users.map fun row =>
        if row.id = id ∧ row.deletedAt = none then
          { row with deletedAt := some t.world.now, updatedAt := t.world.now } else row } := by
      rw [← h.now]
      rfl
    change AlikeFor env e _ { t' with world := t'.world.softDelete id }
    rw [hnow]
    exact hmap

/-- The tokens of a pair name the account they were issued for. -/
theorem Ledger.sub_of_pair (h : Ledger env t) {a T token : String} (hi : IssuedTo env t.log a T u)
    (hpair : token = a ∨ token = T) : ∃ p, env.decode token = some p ∧ p.sub = u.str := by
  obtain ⟨⟨p, hp, -, hsub⟩, ⟨q, hq, -, hqsub⟩⟩ := h.pairs a T u hi
  rcases hpair with rfl | rfl
  · exact ⟨p, hp, hsub⟩
  · exact ⟨q, hq, hqsub⟩

/-- A token of an account of the address stands for the same user in both. -/
theorem AlikeFor.currentUser (h : AlikeFor env e t t') (hsound : Sound env t) (hsound' : Sound env t')
    {a T token : String} (hi : IssuedTo env t.log a T u) (hpair : token = a ∨ token = T)
    (hu : ¬ Other t.world.users e u) :
    t'.world.currentUser env token = t.world.currentUser env token := by
  have hissued : token ∈ t.world.issued ∧ token ∈ t'.world.issued := by
    obtain ⟨ha, hT⟩ := hsound.handed a T u hi
    obtain ⟨ha', hT'⟩ := hsound'.handed a T u ((h.pairs a T u hu).mpr hi)
    rcases hpair with rfl | rfl
    · exact ⟨ha, ha'⟩
    · exact ⟨hT, hT'⟩
  have hclaims : t'.world.accessClaims env token = t.world.accessClaims env token := by
    unfold World.accessClaims World.decodeToken
    simp only [hissued.1, hissued.2, h.now]
  have hsub : ∀ p, t.world.accessClaims env token = some p → p.sub = u.str := by
    intro p hp
    obtain ⟨q, hq, hsub⟩ := hsound.ledger.sub_of_pair hi hpair
    exact Option.some.inj ((accessClaims_eq_some.mp hp).2.1.symm.trans hq) ▸ hsub
  rw [currentUser_eq, currentUser_eq, hclaims]
  cases hp : t.world.accessClaims env token with
  | none => rfl
  | some p => simp only [hsub p hp, UUID.parse_str, h.userById hu]

end Alike

end TaskMgtApp.Auth
