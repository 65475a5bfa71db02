import Mathlib.Data.Set.Card
import TaskMgtApp.Auth.Accounts
import TaskMgtApp.Auth.RefreshLifetime
import TaskMgtApp.Auth.TokenIndex

/-!
# Dead entries of the token index

The requests that take a key `refresh_token:{jti}` away take `jti` out of the set
`user_refresh_tokens:{user}` as well. Redis takes the key away on its own once its time
is up; the set has no expiry and keeps the `jti`. So the index lists live keys only,
exactly as long as no session runs out.
-/
namespace TaskMgtApp.Auth

open TaskMgtApp.Common
open TaskMgtApp.Lib.ExpiringStore

/-- `T` was returned as a refresh token of `u`, has not been spent or revoked since, and
has not expired. -/
def UnexpiredSession (env : Env) (h : Run) (u : UUID) (T : String) : Prop :=
  ∃ p t, env.decode T = some p ∧ p.sub = u.str ∧ Outstanding T u h.log t ∧
    h.world.now < t + env.settings.refreshSeconds

/-- The index of every user lists the `jti`s of live keys of that user, and no more of
them than the user has sessions. -/
structure IndexLive (env : Env) (h : Run) : Prop where
  live : ∀ u j, j ∈ h.world.redis.sets (userTokensKey u) → h.world.LiveToken u j
  size : ∀ u, (h.world.redis.sets (userTokensKey u)).card ≤ {T | UnexpiredSession env h u T}.ncard

/-- No session is left to run out while time passes. -/
def NoneRunsOut (env : Env) (h : Run) (events : List Event) : Prop :=
  ∀ before n rest, events = before ++ .wait n :: rest → ∀ u T,
    UnexpiredSession env (h.after env before) u T →
      UnexpiredSession env (h.after env (before ++ [.wait n])) u T

/-! ## Sessions and live keys -/

section Sessions
variable {env : Env} {h : Run} {u : UUID} {T j : String}

theorem unexpiredSession_iff (ht : Tracks env h) : UnexpiredSession env h u T ↔
    ∃ p t, RefreshToken env h.world.issued T p u ∧ h.world.now < p.exp ∧
      Outstanding T u h.log t := by
  constructor
  · rintro ⟨p, t, hd, hsub, ho, hexp⟩
    obtain ⟨s, hs, hret, rfl⟩ := ho.returned_in
    obtain ⟨q, v, hr, hq⟩ := ht.expiry s hs T hret
    obtain rfl := Option.some.inj (hd.symm.trans hr.decodes)
    obtain rfl := UUID.str_inj.mp (hsub.symm.trans hr.sub)
    exact ⟨p, s.time, hr, hq ▸ hexp, ho⟩
  · rintro ⟨p, t, hr, hexp, ho⟩
    obtain ⟨s, hs, hret, rfl⟩ := ho.returned_in
    obtain ⟨q, v, hr', hq⟩ := ht.expiry s hs T hret
    obtain ⟨rfl, rfl⟩ := hr.user_eq hr'
    exact ⟨p, s.time, hr.decodes, hr.sub, ho, hq ▸ hexp⟩

/-- A key is live exactly as long as the session that it belongs to. -/
theorem liveToken_iff (ht : Tracks env h) : h.world.LiveToken u j ↔
    ∃ T p, env.decode T = some p ∧ p.jti = j ∧ UnexpiredSession env h u T := by
  simp only [World.LiveToken, World.text, Option.map_eq_some_iff, Store.get_eq_some]
  constructor
  · rintro ⟨v, ⟨d, hl⟩, hv⟩
    obtain ⟨T, p, u', t, hr, hj, hc, hexp, ho⟩ := (ht.cells _ _).mp hl
    obtain ⟨rfl, -⟩ := Cell.mk.inj hc
    obtain rfl := UUID.str_inj.mp hv
    exact ⟨T, p, hr.decodes, hj, (unexpiredSession_iff ht).mpr ⟨p, t, hr, hexp, ho⟩⟩
  · rintro ⟨T, p, hd, hj, hs⟩
    obtain ⟨q, t, hr, hexp, ho⟩ := (unexpiredSession_iff ht).mp hs
    obtain rfl := Option.some.inj (hd.symm.trans hr.decodes)
    exact ⟨.text u.str, ⟨some p.exp, (ht.cells _ _).mpr ⟨T, p, u, t, hr, hj, rfl, hexp, ho⟩⟩, rfl⟩

theorem Tracks.finite_sessions (ht : Tracks env h) : {T | UnexpiredSession env h u T}.Finite := by
  refine (List.finite_toSet h.world.issued).subset ?_
  intro T hT
  obtain ⟨p, t, hr, -⟩ := (unexpiredSession_iff ht).mp hT
  exact hr.issued

/-- Every listed `jti` is that of a session of its own. -/
theorem Tracks.size_of_live (ht : Tracks env h)
    (hlive : ∀ j ∈ h.world.redis.sets (userTokensKey u), h.world.LiveToken u j) :
    (h.world.redis.sets (userTokensKey u)).card ≤ {T | UnexpiredSession env h u T}.ncard := by
  rw [← Set.ncard_coe_finset]
  have hsession : ∀ j : String, ∃ T, j ∈ h.world.redis.sets (userTokensKey u) →
      ∃ p, env.decode T = some p ∧ p.jti = j ∧ UnexpiredSession env h u T := by
    intro j
    by_cases hj : j ∈ h.world.redis.sets (userTokensKey u)
    · obtain ⟨T, p, hd, hpj, hs⟩ := (liveToken_iff ht).mp (hlive j hj)
      exact ⟨T, fun _ => ⟨p, hd, hpj, hs⟩⟩
    · exact ⟨"", fun hj' => absurd hj' hj⟩
  choose token htoken using hsession
  refine Set.ncard_le_ncard_of_injOn token ?_ ?_ ht.finite_sessions
  · intro j hj
    obtain ⟨p, -, -, hs⟩ := htoken j hj
    exact hs
  · intro j hj k hk heq
    obtain ⟨p, hp, rfl, -⟩ := htoken j hj
    obtain ⟨q, hq, rfl, -⟩ := htoken k hk
    rw [Option.some.inj (hp.symm.trans (heq ▸ hq))]

end Sessions

/-! ## What one request leaves in the index -/

section Steps
variable {env : Env} {h : Run} {u : UUID} {j : String}

/-- What is listed after a request was listed before, and the request has not ended the
session; or the request has issued it. -/
theorem Effect.listed (ht : Tracks env h) (hr : ResetTracks h) {r : Request}
    {o : Except Exc Reply} {w' : World} (he : Effect env h.world r o w')
    (hj : j ∈ w'.redis.sets (userTokensKey u)) :
    (j ∈ h.world.redis.sets (userTokensKey u) ∧
      ∀ T p, RefreshToken env h.world.issued T p u → p.jti = j → h.world.now < p.exp →
        ¬ Served.spends ⟨h.world.now, r, o⟩ T ∧ ¬ Served.resets ⟨h.world.now, r, o⟩ h.log u) ∨
    ∃ d, j = d.refreshJti.str ∧
      o = .ok (.tokenPair (h.world.tokenPair env u d).1 (h.world.tokenPair env u d).2) := by
  have hbefore := he.member_before hj
  cases he with
  | refused r e hlogout =>
    exact .inl ⟨hj, fun T p _ _ _ => by simp [Served.spends, Served.resets, hlogout]⟩
  | registered | verified | attemptFailed | unknownEmail | resetRequested =>
    rcases hbefore with hbefore | ⟨_, _, _, _, ho⟩
    · exact .inl ⟨hbefore, fun T p _ _ _ => by simp [Served.spends, Served.resets]⟩
    · cases ho
  | loggedIn =>
    rcases hbefore with hbefore | ⟨v, d, hv, rfl, ho⟩
    · exact .inl ⟨hbefore, fun T p _ _ _ => by simp [Served.spends, Served.resets]⟩
    · obtain rfl := (userTokensKey_inj ..).mp hv
      exact .inr ⟨d, rfl, ho⟩
  | reset token newPassword salt userId user htext huser =>
    obtain rfl := World.id_of_userById huser
    left
    have hne : u ≠ user.id := by
      rintro rfl
      simp [World.revokeAll] at hj
    have hold : j ∈ h.world.redis.sets (userTokensKey u) := by
      simpa [World.revokeAll, hne] using hj
    refine ⟨hold, fun T p _ _ _ => ⟨by simp [Served.spends], ?_⟩⟩
    rintro ⟨x, _, _, _, hx, -, hv⟩
    obtain ⟨rfl, -⟩ := Request.resetPassword.inj hx
    obtain ⟨c, hget, hc⟩ := Option.map_eq_some_iff.mp htext
    obtain ⟨dl, hl⟩ := Store.get_eq_some.mp hget
    obtain ⟨v, hcv, hx'⟩ := hr.cells _ _ hl
    dsimp only at hcv
    rw [hcv, Value.str_text, UUID.str_inj] at hc
    exact hne ((hr.unique _ _ _ hv hx').trans hc)
  | refreshed token d p v hclaims hsub =>
    rcases sets_recordToken hj with hj | ⟨hv, rfl⟩
    · left
      refine ⟨sets_of_delete h.world.now (sets_of_srem hj), fun T q hT hq _ => ?_⟩
      refine ⟨?_, by simp [Served.resets]⟩
      intro hspends
      obtain rfl : T = token := by simpa [Served.spends, eq_comm] using hspends
      obtain ⟨v', t, hv', -⟩ := (acceptedClaims_eq_some ht).mp hclaims
      obtain ⟨rfl, rfl⟩ := hT.user_eq hv'
      obtain rfl := UUID.str_inj.mp (hsub.symm.trans hT.sub)
      simp [hq] at hj
    · obtain rfl := (userTokensKey_inj ..).mp hv
      exact .inr ⟨d, rfl, rfl⟩
  | loggedOut token p v hclaims hsub =>
    left
    refine ⟨sets_of_delete h.world.now (sets_of_srem hj), fun T q hT hq _ => ?_⟩
    refine ⟨?_, by simp [Served.resets]⟩
    intro hspends
    obtain rfl : T = token := by simpa [Served.spends, eq_comm] using hspends
    obtain ⟨v', hv', -⟩ := (refreshClaims_eq_some ht).mp hclaims
    obtain ⟨rfl, rfl⟩ := hT.user_eq hv'
    obtain rfl := UUID.str_inj.mp (hsub.symm.trans hT.sub)
    simp [hq] at hj
  | alreadyLoggedOut token hclaims =>
    left
    refine ⟨hj, fun T q hT _ hexp => ⟨?_, by simp [Served.resets]⟩⟩
    intro hspends
    obtain rfl : T = token := by simpa [Served.spends, eq_comm] using hspends
    rw [(refreshClaims_eq_some ht).mpr ⟨u, hT, hexp⟩] at hclaims
    cases hclaims
  | malformedSubject r token p hclaims hsub =>
    obtain ⟨v, hv, -⟩ := (refreshClaims_eq_some ht).mp hclaims
    rw [hv.sub, UUID.parse_str] at hsub
    cases hsub

/-- A request leaves no dead entry where there was none. -/
theorem Tracks.live_request (ht : Tracks env h) (hr : ResetTracks h) (r : Request)
    (hfresh : Fresh (h.log.reverse.map (·.request) ++ [r]))
    (hlive : ∀ u j, j ∈ h.world.redis.sets (userTokensKey u) → h.world.LiveToken u j) :
    ∀ u j, j ∈ (h.step env (.request r)).world.redis.sets (userTokensKey u) →
      (h.step env (.request r)).world.LiveToken u j := by
  intro u j hj
  have ht' := ht.request hr r hfresh
  have he := serve_effect env h.world r
  have hnow : (h.step env (.request r)).world.now = h.world.now := he.now
  rw [liveToken_iff ht']
  rcases Effect.listed ht hr he hj with ⟨hold, hkeeps⟩ | ⟨d, rfl, ho⟩
  · obtain ⟨T, p, hd, hpj, hs⟩ := (liveToken_iff ht).mp (hlive u j hold)
    obtain ⟨q, t, hT, hexp, -⟩ := (unexpiredSession_iff ht).mp hs
    obtain rfl := Option.some.inj (hd.symm.trans hT.decodes)
    obtain ⟨hspends, hresets⟩ := hkeeps T p hT hpj hexp
    obtain ⟨q, t, hq, hsub, hout, hlt⟩ := hs
    exact ⟨T, p, hd, hpj, q, t, hq, hsub, .kept hout hspends hresets, hnow ▸ hlt⟩
  · refine ⟨_, _, env.decode_encode _, rfl, _, h.world.now, env.decode_encode _, rfl,
      .returned ⟨_, ho⟩, ?_⟩
    rw [hnow]
    exact Nat.lt_add_of_pos_right env.settings.refreshSeconds_pos

/-- Nor does the passage of time, if no session runs out. -/
theorem Tracks.live_wait (ht : Tracks env h) {n : Nat}
    (hlive : ∀ u j, j ∈ h.world.redis.sets (userTokensKey u) → h.world.LiveToken u j)
    (hnone : ∀ u T, UnexpiredSession env h u T →
      UnexpiredSession env (h.step env (.wait n)) u T) :
    ∀ u j, j ∈ (h.step env (.wait n)).world.redis.sets (userTokensKey u) →
      (h.step env (.wait n)).world.LiveToken u j := by
  intro u j hj
  obtain ⟨T, p, hd, hpj, hs⟩ := (liveToken_iff ht).mp (hlive u j hj)
  exact (liveToken_iff (ht.wait n)).mpr ⟨T, p, hd, hpj, hnone u T hs⟩

/-- A session that runs out leaves its `jti` in the index. -/
theorem Tracks.session_of_live_wait (ht : Tracks env h) {n : Nat}
    (hlive : ∀ u j, j ∈ (h.step env (.wait n)).world.redis.sets (userTokensKey u) →
      (h.step env (.wait n)).world.LiveToken u j) {T : String}
    (hs : UnexpiredSession env h u T) : UnexpiredSession env (h.step env (.wait n)) u T := by
  obtain ⟨p, t, hT, hexp, ho⟩ := (unexpiredSession_iff ht).mp hs
  have hlisted : p.jti ∈ h.world.redis.sets (userTokensKey u) :=
    ht.indexed p.jti u _ ((ht.cells _ _).mpr ⟨T, p, u, t, hT, rfl, rfl, hexp, ho⟩)
  obtain ⟨T', p', hd, hpj, hs'⟩ := (liveToken_iff (ht.wait n)).mp (hlive u p.jti hlisted)
  obtain ⟨q, t', hT', -⟩ := (unexpiredSession_iff (ht.wait n)).mp hs'
  obtain rfl := Option.some.inj (hd.symm.trans hT'.decodes)
  rwa [ht.unique _ _ _ _ _ _ hT hT' hpj.symm]

end Steps

/-! ## Runs -/

section Runs
variable {env : Env} {now : Nat} {users : List User} {events : List Event}

/-- While no session runs out, no entry dies. -/
theorem live_after (hfresh : Fresh (events.flatMap Event.requests))
    (hnone : NoneRunsOut env (Run.start now users) events) :
    ∀ u j, j ∈ ((Run.start now users).after env events).world.redis.sets (userTokensKey u) →
      ((Run.start now users).after env events).world.LiveToken u j := by
  induction events using List.reverseRecOn with
  | nil =>
    intro u j hj
    simp [Run.start, Store.empty] at hj
  | append_singleton events e ih =>
    rw [List.flatMap_append] at hfresh
    have hlive := ih hfresh.of_append fun before n rest hsplit =>
      hnone before n (rest ++ [e]) (by simp [hsplit])
    obtain ⟨ht, hr⟩ := bothTrack_after env now users events hfresh.of_append
    rw [Run.after_append]
    cases e with
    | wait n =>
      refine ht.live_wait hlive fun u T hs => ?_
      have hs' := hnone events n [] rfl u T hs
      rwa [Run.after_append] at hs'
    | request r =>
      refine ht.live_request hr r ?_ hlive
      rw [Run.requests_after]
      simpa [Run.start, Event.requests] using hfresh

end Runs

/-- The index lists no dead entry along a run exactly if no session of the run is left to
run out. -/
theorem index_live_iff (env : Env) (now : Nat) (users : List User) (events : List Event)
    (hfresh : Fresh (events.flatMap Event.requests)) :
    (∀ before rest, events = before ++ rest →
      IndexLive env ((Run.start now users).after env before)) ↔
    NoneRunsOut env (Run.start now users) events := by
  have hfirst : ∀ before rest, events = before ++ rest →
      Fresh (before.flatMap Event.requests) := by
    rintro before rest rfl
    rw [List.flatMap_append] at hfresh
    exact hfresh.of_append
  constructor
  · intro h before n rest hsplit u T hs
    rw [Run.after_append]
    refine (tracks_after env now users before (hfirst before _ hsplit)).session_of_live_wait ?_ hs
    have hlive := (h (before ++ [.wait n]) rest (by simp [hsplit])).live
    rwa [Run.after_append] at hlive
  · intro hnone before rest hsplit
    have hlive := live_after (hfirst before rest hsplit) fun first n last heq =>
      hnone first n (last ++ rest) (by simp [hsplit, heq])
    have ht := tracks_after env now users before (hfirst before rest hsplit)
    exact ⟨hlive, fun u => ht.size_of_live (hlive u)⟩

/-- A login, and the set lists its token a minute later. -/
theorem index_live_iff_login :
    let events : List Event :=
      [.request (.login "Ada@example.com" "correct horse" (plainDraws .one)), .wait 60]
    IndexLive plainEnv ((Run.start 1000 [ada]).after plainEnv events) := by
  intro events
  refine (index_live_iff plainEnv 1000 [ada] events (by decide)).mpr ?_ events [] (by simp)
  rintro before n rest hsplit u T ⟨p, t, hd, hsub, ho, -⟩
  have hbefore : before = [.request (.login "Ada@example.com" "correct horse" (plainDraws .one))] ∧
      n = 60 := by
    rcases before with _ | ⟨e, _ | ⟨e', before⟩⟩
    · simp [events] at hsplit
    · simp only [events, List.singleton_append, List.cons.injEq, Event.wait.injEq] at hsplit
      exact ⟨by rw [hsplit.1], hsplit.2.1.symm⟩
    · simp [events] at hsplit
  obtain ⟨rfl, rfl⟩ := hbefore
  obtain ⟨s, hs, -, rfl⟩ := ho.returned_in
  obtain rfl := List.mem_singleton.mp hs
  exact ⟨p, _, hd, hsub, ho, by decide⟩

/-- The login of a week ago is still listed, its key long gone. -/
theorem index_dead_entry :
    let events : List Event :=
      [.request (.login "Ada@example.com" "correct horse" (plainDraws .one)), .wait 604800]
    Fresh (events.flatMap Event.requests) ∧
      ¬ IndexLive plainEnv ((Run.start 1000 [ada]).after plainEnv events) := by
  intro events
  refine ⟨by decide, fun h => ?_⟩
  have hlive := h.live ada.id (plainDraws .one).refreshJti.str (by decide +kernel)
  revert hlive
  decide +kernel

end TaskMgtApp.Auth
