import TaskMgtApp.Auth.Concurrent
import TaskMgtApp.Auth.Instance

/-!
# The index of live refresh tokens

`_revoke_all_refresh_tokens` finds the tokens of a user through the set
`user_refresh_tokens:{user}`. The index is complete in every state at rest, for
all requests side by side, as long as no reset deletes an index that lists a
live token: one that was recorded after the reset read the index. That can
happen, and the token it leaves behind outlives every later reset.
-/
namespace TaskMgtApp.Auth

open TaskMgtApp.Common
open TaskMgtApp.Lib.Program TaskMgtApp.Lib.Program.Prog
open TaskMgtApp.Lib.Interleaving
open TaskMgtApp.Lib.ExpiringStore (Store)

/-- Every live refresh token is listed in the index of its user. -/
def IndexComplete (w : World) : Prop :=
  ∀ u j, w.LiveToken u j → j ∈ w.redis.sets (userTokensKey u)

/-- The draws tell the requests apart. -/
def DistinctDraws {ι : Type} (requests : ι → Request) : Prop :=
  ∀ i k d d', (requests i).draws = some d → (requests k).draws = some d' →
    d.refreshJti.str = d'.refreshJti.str → i = k

/-- The `jti`s the requests draw are all different, and new to the world they start in. -/
structure FreshDraws {ι : Type} (env : Env) (w : World) (requests : ι → Request) : Prop where
  distinct : DistinctDraws requests
  unissued : ∀ i d T p, (requests i).draws = some d → T ∈ w.issued → env.decode T = some p →
    p.type = .refresh → d.refreshJti.str ≠ p.jti
  unlisted : ∀ i d u, (requests i).draws = some d → d.refreshJti.str ∉ w.redis.sets (userTokensKey u)

/-- The token under way in a refresh or a logout. -/
def Phase.claims : Phase → Option Claims
  | .presenting p | .holding p | .spending p _ | .leaving p | .unlisting p _ => some p
  | _ => none

section Moves
variable {env : Env} {r : Request} {φ φ' : Phase} {c : Cmd} {s : State}

theorem Move.from_issued {u : UUID} (hm : Move env r (.issued u) c s φ') : φ' = .issued u := by
  cases hm <;> rfl

/-- A token is under way because it was before, or because the app had handed it out. -/
theorem Move.claims_before (hm : Move env r φ c s φ') {p : Claims} (hp : φ'.claims = some p) :
    φ.claims = some p ∨ ∃ T ∈ s.2.issued, env.decode T = some p ∧ p.type = .refresh := by
  cases hm with
  | present hr hq | leave hr hq =>
    obtain rfl := Option.some.inj hp
    exact .inr ⟨_, issued_of_refreshClaims hq⟩
  | pass hq | take hsub | drop hsub => exact .inl hp
  | _ => cases hp

/-- A token is spent or logged out by the command that deletes its key. -/
theorem Move.spent (hm : Move env r φ c s φ') {p : Claims} {u : UUID}
    (h : φ' = .spending p u ∨ φ' = .unlisting p u) : c = .delete {refreshTokenKey p.jti} := by
  rcases h with rfl | rfl <;> cases hm <;> rfl

end Moves

/-! ## What holds of every run -/

section Runs
variable {ι : Type} {env : Env} {requests : ι → Request} {φ : ι → Phase} {c : Threads ι}

/-- Whoever drew `j` has recorded its token. -/
def Settled (requests : ι → Request) (φ : ι → Phase) (j : String) : Prop :=
  ∀ i d, (requests i).draws = some d → d.refreshJti.str = j → ∃ u, φ i = .issued u

/-- Tokens that are listed, handed out or presented have been recorded, and the key
of a token that is being spent is gone for good. -/
structure Books (env : Env) (requests : ι → Request) (φ : ι → Phase) (c : Threads ι) : Prop where
  issued : ∀ T ∈ c.world.issued, ∀ p, env.decode T = some p → p.type = .refresh →
    Settled requests φ p.jti
  members : ∀ u j, j ∈ c.world.redis.sets (userTokensKey u) → Settled requests φ j
  presented : ∀ i p, (φ i).claims = some p → Settled requests φ p.jti
  spent : ∀ i p u, (φ i = .spending p u ∨ φ i = .unlisting p u) → ∀ v, ¬ c.world.LiveToken v p.jti

theorem Books.start {w : World} (h : FreshDraws env w requests) :
    Books env requests (fun _ => .idle) (beside env w requests) where
  issued T hT p hp hty i d hd hj := absurd hj (h.unissued i d T p hd hT hp hty)
  members u j hj i d hd hi := absurd (hi ▸ hj) (h.unlisted i d u hd)
  presented i p hp := by cases hp
  spent i p u hi := by rcases hi with hi | hi <;> cases hi

theorem Books.drift (h : Books env requests φ c) (n : Nat) [DecidableEq ι] :
    Books env requests φ (c.step (machine env) (.drift n)) where
  issued := h.issued
  members := h.members
  presented := h.presented
  spent i p u hi v hl := h.spent i p u hi v (World.LiveToken.of_later hl)

variable [DecidableEq ι] {i : ι} {cmd : Cmd} {k : Except Exc cmd.Val → AuthM Reply} {φ' : Phase}

theorem Settled.move {j : String} {s : State} (h : Settled requests φ j)
    (hm : Move env (requests i) (φ i) cmd s φ') :
    Settled requests (Function.update φ i φ') j := by
  intro a d hd hj
  obtain ⟨u, hu⟩ := h a d hd hj
  by_cases ha : a = i
  · subst ha
    rw [hu] at hm
    exact ⟨u, by rw [Function.update_self, hm.from_issued]⟩
  · exact ⟨u, by rw [Function.update_of_ne ha, hu]⟩

theorem settled_of_drawn (hdistinct : DistinctDraws requests) {d : IssueDraws} {u : UUID}
    (hd : (requests i).draws = some d) :
    Settled requests (Function.update φ i (.issued u)) d.refreshJti.str := by
  intro a d' hd' hj
  obtain rfl := hdistinct a i d' d hd' hd hj
  exact ⟨u, Function.update_self ..⟩

theorem Books.move (hdistinct : DistinctDraws requests) (h : Books env requests φ c)
    (hm : Move env (requests i) (φ i) cmd ((c.threads i).locals, c.world) φ') :
    Books env requests (Function.update φ i φ') (c.issue (machine env) i cmd k) := by
  constructor
  · intro T hT p hp hty
    rw [world_issue] at hT
    rcases hm.issued_before hT with hT | ⟨u, -, rfl, hminted⟩
    · exact (h.issued T hT p hp hty).move hm
    · obtain ⟨d, hd, hj⟩ := (hminted p hp hty).jti
      exact hj ▸ settled_of_drawn hdistinct hd
  · intro u j hj
    rw [world_issue] at hj
    rcases hm.indexed_before hj with hj | ⟨-, rfl, d, hd, rfl⟩
    · exact (h.members u j hj).move hm
    · exact settled_of_drawn hdistinct hd
  · intro a p hp
    by_cases ha : a = i
    · subst ha
      rw [Function.update_self] at hp
      rcases hm.claims_before hp with hp | ⟨T, hT, hd, hty⟩
      · exact (h.presented a p hp).move hm
      · exact (h.issued T hT p hd hty).move hm
    · rw [Function.update_of_ne ha] at hp
      exact (h.presented a p hp).move hm
  · intro a p u hi v hl
    rw [world_issue] at hl
    by_cases ha : a = i
    · subst ha
      rw [Function.update_self] at hi
      obtain rfl := hm.spent hi
      exact (liveToken_delete.mp hl).1 (Finset.mem_singleton_self _)
    · rw [Function.update_of_ne ha] at hi
      rcases hm.live_before hl with hl | ⟨hissuing, -, d, hd, hj⟩
      · exact h.spent a p u hi v hl
      · have hp : (φ a).claims = some p := by rcases hi with hi | hi <;> rw [hi] <;> rfl
        obtain ⟨u', hu'⟩ := h.presented a p hp i d hd hj
        rw [hissuing] at hu'
        cases hu'

/-! ## Completeness of the index -/

/-- The keys a command deletes. -/
def Cmd.deletes : Cmd → Finset String
  | .delete ks => ks
  | _ => ∅

/-- A command that deletes an index finds no live token listed there. -/
def UnindexesNoLive (c : Threads ι) : Act ι Nat → Prop
  | .drift _ => True
  | .step i => ∀ cmd ∈ c.next i, ∀ k ∈ cmd.deletes, ∀ j ∈ c.world.redis.sets k,
      c.world.text (refreshTokenKey j) = none

instance (c : Threads ι) : (a : Act ι Nat) → Decidable (UnindexesNoLive c a)
  | .drift _ => instDecidableTrue
  | .step i => inferInstanceAs (Decidable (∀ cmd ∈ c.next i, ∀ k ∈ cmd.deletes,
      ∀ j ∈ c.world.redis.sets k, c.world.text (refreshTokenKey j) = none))

/-- Every live token is listed or about to be. -/
def Listed (requests : ι → Request) (φ : ι → Phase) (c : Threads ι) : Prop :=
  ∀ u j, c.world.LiveToken u j → j ∈ c.world.redis.sets (userTokensKey u) ∨
    ∃ i d, φ i = .recording u ∧ (requests i).draws = some d ∧ d.refreshJti.str = j

theorem Listed.move (hbooks : Books env requests φ c) (h : Listed requests φ c)
    (hm : Move env (requests i) (φ i) cmd ((c.threads i).locals, c.world) φ')
    (hkeep : ∀ u, cmd = .delete {userTokensKey u} → ∀ j ∈ c.world.redis.sets (userTokensKey u),
      ¬ c.world.LiveToken u j) :
    Listed requests (Function.update φ i φ') (c.issue (machine env) i cmd k) := by
  intro u j hl
  rw [world_issue] at hl ⊢
  rcases hm.live_before hl with hbefore | ⟨-, rfl, d, hd, hj⟩
  · rcases h u j hbefore with hj | ⟨a, d, ha, hd, hj⟩
    · rcases hm.indexed_after hj with hj' | ⟨p, hspent, rfl⟩ | rfl
      · exact .inl hj'
      · exact absurd hbefore (hbooks.spent i p u hspent u)
      · exact absurd hbefore (hkeep u rfl j hj)
    · by_cases hai : a = i
      · subst hai
        rw [ha] at hm
        left
        cases hm with
        | sadd hd' =>
          obtain rfl := Option.some.inj (hd.symm.trans hd')
          simp [exec, hj]
      · exact .inr ⟨a, d, by rw [Function.update_of_ne hai, ha], hd, hj⟩
  · exact .inr ⟨i, d, Function.update_self .., hd, hj⟩

omit [DecidableEq ι] in
theorem not_live_of_unindexesNoLive (hp : (c.threads i).prog = .call cmd k)
    (hmeets : UnindexesNoLive c (.step i)) (u : UUID) (hcmd : cmd = .delete {userTokensKey u}) :
    ∀ j ∈ c.world.redis.sets (userTokensKey u), ¬ c.world.LiveToken u j := by
  subst hcmd
  intro j hj hl
  have hnext : Cmd.delete {userTokensKey u} ∈ c.next i := by simp [Config.next, hp]
  have hnone := hmeets _ hnext _ (Finset.mem_singleton_self _) j hj
  exact absurd (hl.symm.trans hnone) (Option.some_ne_none _)

/-- The index is complete whenever no request is in progress. -/
theorem indexComplete_atRest {w : World} (hfresh : FreshDraws env w requests)
    (hindex : IndexComplete w) {schedule : List (Act ι Nat)}
    (hmeets : (beside env w requests).Along (machine env) UnindexesNoLive schedule)
    (hrest : ((beside env w requests).run (machine env) schedule).AtRest) :
    IndexComplete ((beside env w requests).run (machine env) schedule).world := by
  obtain ⟨φ, hobey, ⟨-, hlisted⟩, hidle⟩ := run_invariant
    (J := fun φ c => Books env requests φ c ∧ Listed requests φ c)
    (fun φ c n _ hJ _ => ⟨hJ.1.drift n, fun u j hl => hJ.2 u j (World.LiveToken.of_later hl)⟩)
    (fun φ c i cmd k φ' _ hJ hp hm hmeets =>
      ⟨hJ.1.move hfresh.distinct hm,
        hJ.2.move hJ.1 hm (not_live_of_unindexesNoLive hp hmeets)⟩)
    (beside_obeys env w requests) ⟨.start hfresh, fun u j hl => .inl (hindex u j hl)⟩ hmeets
  intro u j hl
  rcases hlisted u j hl with hj | ⟨i, d, hi, -, -⟩
  · exact hj
  · by_cases hs : ((beside env w requests).run (machine env) schedule).Started i
    · obtain ⟨o, ho⟩ := Option.isSome_iff_exists.mp (hrest i hs)
      have hfinal := hobey.final ho
      rw [hi] at hfinal
      cases hfinal
    · rw [hidle i hs] at hi
      cases hi

end Runs

/-- A reset of the password of `u` with nothing beside it revokes every refresh token
of `u`, if the index is complete. -/
theorem reset_revokes {env : Env} {w : World} (hindex : IndexComplete w)
    {x newPassword salt : String} {u : UUID} {r : Reply}
    (hx : w.text (pwdResetKey x) = some u.str)
    (hok : (serve env w (.resetPassword x newPassword salt)).1 = .ok r) {T : String} {p : Claims}
    (hT : env.decode T = some p) (hsub : p.sub = u.str) :
    (serve env w (.resetPassword x newPassword salt)).2.acceptedClaims env T = none := by
  rw [serve_resetPassword] at hok ⊢
  simp only [hx, UUID.parse_str] at hok ⊢
  cases huser : w.userById u with
  | none =>
    simp only [huser] at hok
    cases hok
  | some user =>
    obtain rfl := World.id_of_userById huser
    simp only
    rw [Option.eq_none_iff_forall_ne_some]
    intro q hq
    obtain ⟨hrefresh, htext⟩ := (acceptedClaims_eq_some_iff _ _).mp hq
    obtain rfl : p = q := Option.some.inj (hT.symm.trans (issued_of_refreshClaims hrefresh).2.1)
    simp only [World.text, World.revokeAll, Store.get, Store.smembers, Store.look_delete,
      Store.sets_delete, Finset.mem_singleton, Finset.mem_image, refreshTokenKey_inj,
      exists_eq_right, refreshTokenKey_ne, userTokensKey_ne, if_false] at htext
    by_cases hj : p.jti ∈ w.redis.sets (userTokensKey user.id)
    · simp [hj] at htext
    · simp only [hj, if_false, hsub] at htext
      exact hj (hindex user.id p.jti htext)

/-- For all requests side by side and every order of their commands: at rest the
index lists every live token, and a reset of `u` made then revokes every refresh
token of `u`, provided no index is deleted that lists a live token. -/
theorem token_index_complete {ι : Type} [DecidableEq ι] (env : Env) (w : World)
    (requests : ι → Request) (hfresh : FreshDraws env w requests) (hindex : IndexComplete w)
    (schedule : List (Act ι Nat))
    (hmeets : (beside env w requests).Along (machine env) UnindexesNoLive schedule) :
    let c := (beside env w requests).run (machine env) schedule
    c.AtRest → IndexComplete c.world ∧
      ∀ (u : UUID) (x newPassword salt : String) (r : Reply),
        c.world.text (pwdResetKey x) = some u.str →
        (serve env c.world (.resetPassword x newPassword salt)).1 = .ok r →
        ∀ T p, env.decode T = some p → p.sub = u.str →
          (serve env c.world (.resetPassword x newPassword salt)).2.acceptedClaims env T = none := by
  intro c hrest
  have hcomplete : IndexComplete c.world := indexComplete_atRest hfresh hindex hmeets hrest
  exact ⟨hcomplete, fun u x newPassword salt r hx hok T p hT hsub =>
    reset_revokes hcomplete hx hok hT hsub⟩

/-! ### A login beside a reset -/

def loginBesideReset : Fin 2 → Request
  | 0 => .login "ada@example.com" "correct horse" (plainDraws .one)
  | 1 => .resetPassword "x" "battery staple" "s1"

theorem loginBesideReset_fresh : FreshDraws plainEnv adaResetting loginBesideReset where
  distinct i k d d' hi hk _ := by
    match i, k with
    | 0, 0 => rfl
    | 0, 1 => cases hk
    | 1, _ => cases hi
  unissued _ _ _ _ _ hT := by cases hT
  unlisted _ _ _ _ := by simp [adaResetting, Store.empty]

theorem adaResetting_indexComplete : IndexComplete adaResetting := by
  intro u j hl
  simp [adaResetting, World.LiveToken, World.text, Store.get] at hl

/-- The login ends before the reset begins: the index is complete at rest. -/
theorem token_index_complete_serial :
    let c := (beside plainEnv adaResetting loginBesideReset).run (machine plainEnv)
      (List.replicate 9 (.step 0) ++ List.replicate 8 (.step 1))
    IndexComplete c.world := by
  intro c
  have hmeets : (beside plainEnv adaResetting loginBesideReset).Along (machine plainEnv)
      UnindexesNoLive (List.replicate 9 (.step 0) ++ List.replicate 8 (.step 1)) := by decide
  have hrest : c.AtRest := by decide
  exact (token_index_complete plainEnv adaResetting loginBesideReset loginBesideReset_fresh
    adaResetting_indexComplete _ hmeets hrest).1

/-- The login records its token after the reset has read the index and before it
deletes it: at rest the token is live and not listed, and a second reset with
nothing beside it leaves the token accepted. -/
theorem token_index_incomplete :
    FreshDraws plainEnv adaResetting loginBesideReset ∧ IndexComplete adaResetting ∧
    let c := (beside plainEnv adaResetting loginBesideReset).run (machine plainEnv)
      (List.replicate 5 (.step 1) ++ List.replicate 9 (.step 0) ++ List.replicate 2 (.step 1))
    let later := serve plainEnv c.world (.resetPassword "y" "tractor" "s2")
    let p := adaClaims .one
    c.AtRest ∧ ¬ IndexComplete c.world ∧ later.1 = .ok .none ∧
      later.2.acceptedClaims plainEnv (plainEnv.encode p) = some p := by
  refine ⟨loginBesideReset_fresh, adaResetting_indexComplete, ?_⟩
  intro c later p
  refine ⟨by decide, fun hindex => ?_, by decide, ?_⟩
  · have hlive : c.world.LiveToken ada.id (plainDraws .one).refreshJti.str := by decide
    have hlisted : (plainDraws .one).refreshJti.str ∉ c.world.redis.sets (userTokensKey ada.id) := by decide
    exact hlisted (hindex ada.id _ hlive)
  · have hissued : plainEnv.encode p ∈ later.2.issued :=
      List.mem_cons_of_mem _ (List.mem_cons_self ..)
    exact acceptedClaims_encode plainEnv hissued (by decide) rfl (by decide)

end TaskMgtApp.Auth
