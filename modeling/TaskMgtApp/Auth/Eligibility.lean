import TaskMgtApp.Auth.Credentials

/-!
# Who is issued a token pair

`login` checks that the account is active, not deleted and verified, and so does
`get_current_user` for the first two. `refresh_access_token` checks none of it: it
issues to whoever its Redis key names. The tokens go to eligible accounts only, as
long as nobody deactivates or deletes an account that still has a live refresh token.
-/
namespace TaskMgtApp.Auth

open TaskMgtApp.Common
open TaskMgtApp.Lib.ExpiringStore

/-- The account `u` may log in. -/
def Eligible (w : World) (u : UUID) : Prop :=
  ∃ row ∈ w.users, row.id = u ∧ row.deletedAt = none ∧ row.isActive = true ∧
    row.isEmailVerified = true

instance (w : World) (u : UUID) : Decidable (Eligible w u) :=
  inferInstanceAs (Decidable (∃ row ∈ w.users, _))

/-- Some live refresh token belongs to the account `u`. -/
def HasSession (w : World) (u : UUID) : Prop :=
  ∃ j c, w.redis.look w.now (refreshTokenKey j) = some c ∧ c.value = .text u.str

/-- The action takes no account away from its sessions. -/
def Action.gentle (w : World) : Action → Prop
  | .setActive id false | .softDelete id => ¬ HasSession w id
  | _ => True

/-- Every action of a run is gentle in the state it meets. -/
def Gentle (env : Env) : Trace → List Action → Prop
  | _, [] => True
  | t, a :: actions => a.gentle t.world ∧ Gentle env (t.step env a) actions

/-- Every live refresh token belongs to an eligible account. -/
def SessionsEligible (w : World) : Prop :=
  ∀ j c, w.redis.look w.now (refreshTokenKey j) = some c → ∃ u : UUID, c.value = .text u.str ∧ Eligible w u

section Steps
variable {env : Env} {w w' : World} {r : Request} {o : Except Exc Reply} {u : UUID}

theorem Eligible.map (h : Eligible w u) {g : User → User}
    (hg : ∀ row, row.id = u → (g row).id = row.id ∧ (row.deletedAt = none → (g row).deletedAt = none) ∧
      (row.isActive = true → (g row).isActive = true) ∧
      (row.isEmailVerified = true → (g row).isEmailVerified = true)) :
    Eligible { w with users := w.users.map g } u := by
  obtain ⟨row, hrow, hid, hdel, hactive, hver⟩ := h
  obtain ⟨hid', hdel', hactive', hver'⟩ := hg row hid
  exact ⟨g row, List.mem_map_of_mem hrow, hid'.trans hid, hdel' hdel, hactive' hactive, hver' hver⟩

/-- No request makes an account ineligible. -/
theorem Effect.eligible (he : Effect env w r o w') (h : Eligible w u) : Eligible w' u := by
  cases he with
  | registered email password fullName d hnone haccepts =>
    obtain ⟨row, hrow, hrest⟩ := h
    exact ⟨row, List.mem_append_left _ hrow, hrest⟩
  | verified token userId user htext huser =>
    refine h.map fun row _ => ?_
    obtain ⟨hid, -, hactive, hdel⟩ := applyRow_keeps w.now row (.emailVerified user)
    refine ⟨hid, fun hd => hdel.trans hd, fun ha => hactive.trans ha, fun hv => ?_⟩
    simp only [UserWrite.applyRow]
    split
    · rfl
    · exact hv
  | reset token newPassword salt userId user htext huser =>
    refine h.map fun row _ => ?_
    obtain ⟨hid, -, hactive, hdel⟩ :=
      applyRow_keeps w.now row (.passwordHash user (env.hash newPassword salt))
    refine ⟨hid, fun hd => hdel.trans hd, fun ha => hactive.trans ha, fun hv => ?_⟩
    simp only [UserWrite.applyRow]
    split
    · exact hv
    · exact hv
  | _ => exact h

/-- A pair goes to an account that has just been checked, or that has a live token. -/
theorem Effect.pair_eligible (he : Effect env w r o w') (h : SessionsEligible w) {a T : String}
    (ho : o = .ok (.tokenPair a T)) (hpair : PairFor env u a T) : Eligible w u := by
  cases he with
  | loggedIn email password d user hlock huser hverified =>
    cases ho
    obtain rfl := hpair.user_eq (pairFor_tokenPair w user.id d)
    obtain ⟨hfound, hvalid⟩ := Option.filter_eq_some_iff.mp huser
    have hactive := List.find?_some hfound
    simp only [Bool.and_eq_true, Option.isNone_iff_eq_none] at hactive
    simp only [credentialsValid, Bool.and_eq_true] at hvalid
    exact ⟨user, List.mem_of_find?_eq_some hfound, rfl, hactive.1, hvalid.2, hverified⟩
  | refreshed token d p v hclaims hsub =>
    cases ho
    obtain rfl := hpair.user_eq (pairFor_tokenPair w v d)
    obtain ⟨c, hc, hcv⟩ := text_eq_some ((acceptedClaims_eq_some_iff env w).mp hclaims).2
    obtain ⟨x, hx, heligible⟩ := h p.jti c hc
    rw [hx, hsub] at hcv
    obtain rfl := UUID.str_inj.mp hcv
    exact heligible
  | _ => cases ho

theorem SessionsEligible.request (h : SessionsEligible w) (he : Effect env w r o w') :
    SessionsEligible w' := by
  intro j c hc
  rw [he.now] at hc
  rcases he.look_before hc with hc | hwrote
  · obtain ⟨v, hv, heligible⟩ := h j c hc
    exact ⟨v, hv, he.eligible heligible⟩
  · generalize hk : refreshTokenKey j = k at hwrote
    generalize ho : o = o' at hwrote
    cases hwrote with
    | @refreshToken _ v d =>
      exact ⟨v, rfl, he.eligible (he.pair_eligible h ho (pairFor_tokenPair w v d))⟩
    | _ => simp at hk

/-- Changing the rows of an account without sessions. -/
theorem SessionsEligible.users (h : SessionsEligible w) {id : UUID} {g : User → User}
    (hid : ¬ HasSession w id) (hg : ∀ row, row.id ≠ id → g row = row) :
    SessionsEligible { w with users := w.users.map g } := by
  intro j c hc
  obtain ⟨v, hv, heligible⟩ := h j c hc
  refine ⟨v, hv, heligible.map fun row hrow => ?_⟩
  have hne : row.id ≠ id := by
    intro hrow'
    apply hid
    exact ⟨j, c, hc, by rw [hv, ← hrow, hrow']⟩
  rw [hg row hne]
  exact ⟨rfl, fun h => h, fun h => h, fun h => h⟩

theorem SessionsEligible.step {t : Trace} (h : SessionsEligible t.world) {a : Action}
    (hgentle : a.gentle t.world) : SessionsEligible (t.step env a).world := by
  cases a with
  | wait n => exact fun j c hc => h j c (Store.look_of_later (Nat.le_add_right _ n) hc)
  | request r => exact h.request (serve_effect env t.world r)
  | softDelete id =>
    refine h.users hgentle fun row hrow => ?_
    exact if_neg fun hand => hrow hand.1
  | setActive id isActive =>
    cases isActive with
    | false => exact h.users hgentle fun row hrow => if_neg hrow
    | true =>
      intro j c hc
      obtain ⟨v, hv, heligible⟩ := h j c hc
      refine ⟨v, hv, heligible.map fun row _ => ?_⟩
      split
      · exact ⟨rfl, fun h => h, fun _ => rfl, fun h => h⟩
      · exact ⟨rfl, fun h => h, fun h => h, fun h => h⟩

theorem SessionsEligible.after {t : Trace} {actions : List Action} (h : SessionsEligible t.world)
    (hgentle : Gentle env t actions) : SessionsEligible (t.after env actions).world := by
  induction actions generalizing t with
  | nil => exact h
  | cons a as ih => exact ih (h.step hgentle.1) hgentle.2

end Steps

/-- In every run in which no account is deactivated or deleted while it has a live
refresh token, every state reached issues token pairs to eligible accounts only. -/
theorem pairs_go_to_eligible (env : Env) (now : Nat) (users : List User) (actions : List Action)
    (hgentle : Gentle env (Trace.start now users) actions) (r : Request) (u : UUID) (a T : String)
    (hpair : PairFor env u a T) :
    let w := ((Trace.start now users).after env actions).world
    (serve env w r).1 = .ok (.tokenPair a T) → Eligible w u := by
  intro w ho
  have hstart : SessionsEligible (Trace.start now users).world := by
    intro j c hc
    simp [Trace.start] at hc
  exact (serve_effect env w r).pair_eligible (hstart.after hgentle) ho hpair

/-- Ada, deactivated and reactivated while she had no session, logs in. -/
theorem pairs_go_to_eligible_reactivated :
    let w := ((Trace.start 1000 [ada]).after plainEnv
      [.setActive ada.id false, .wait 60, .setActive ada.id true]).world
    Eligible w ada.id := by
  intro w
  refine pairs_go_to_eligible plainEnv 1000 [ada]
    [.setActive ada.id false, .wait 60, .setActive ada.id true] ⟨?_, trivial, trivial, trivial⟩
    (.login "ada@example.com" "correct horse" (plainDraws .one)) ada.id _ _
    (pairFor_tokenPair w ada.id (plainDraws .one)) (by decide +kernel)
  rintro ⟨j, c, hc, -⟩
  cases hc

/-- Ada is deactivated while she has a session: `refresh_access_token` goes on issuing
pairs to her. -/
theorem deactivated_account_refreshes :
    let w := ((Trace.start 1000 []).after plainEnv (adaJoins ++ [.setActive ada.id false])).world
    let token := plainEnv.encode ⟨ada.id.str, .refresh, 1060, 605860, (plainDraws .one).refreshJti.str⟩
    ∃ a T, (serve plainEnv w (.refreshAccessToken token (plainDraws .two))).1 = .ok (.tokenPair a T) ∧
      PairFor plainEnv ada.id a T ∧ ¬ Eligible w ada.id := by
  intro w token
  exact ⟨_, _, by decide +kernel, pairFor_tokenPair w ada.id (plainDraws .two), by decide +kernel⟩

end TaskMgtApp.Auth
