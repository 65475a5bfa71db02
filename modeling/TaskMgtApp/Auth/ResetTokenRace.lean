import TaskMgtApp.Auth.ResetRace

/-!
# One reset token, many resets

`reset_password` looks its token up with one command and deletes it with another
one, and what the deletion returns is ignored. The token is spent once as long as
no call finds it while another call stands between its own lookup and its own
deletion. Nothing in the code prevents that, and then both calls succeed.
-/
namespace TaskMgtApp.Auth

open TaskMgtApp.Common
open TaskMgtApp.Lib.Program TaskMgtApp.Lib.Program.Prog
open TaskMgtApp.Lib.Interleaving
open TaskMgtApp.Lib.ExpiringStore (Store)

/-- A call of `reset_password` for each thread, all with the token `x`. -/
def resets {ι : Type} (x : String) (newPassword salt : ι → String) (i : ι) : Request :=
  .resetPassword x (newPassword i) (salt i)

def resetMessage : String := "Reset link is invalid or has expired."

/-- The call has returned. -/
def Succeeds {ι : Type} (c : Threads ι) (i : ι) : Prop := c.outcome i = some (.ok .none)

instance {ι : Type} (c : Threads ι) (i : ι) : Decidable (Succeeds c i) :=
  match h : c.outcome i with
  | some (.ok .none) => .isTrue h
  | some (.ok (.registered _ _)) | some (.ok (.tokenPair _ _)) | some (.ok (.resetRequested _))
  | some (.error _) | none => .isFalse (by unfold Succeeds; rw [h]; simp)

/-- A command between the lookup of the token `x` and the deletion of its key. -/
def Cmd.redeems (x : String) : Cmd → Bool
  | .getById _ | .assignPasswordHash _ _ => true
  | .delete ks => ks = {pwdResetKey x}
  | _ => false

/-- The token `x` leads to an account. -/
def World.Redeemable (w : World) (x : String) : Prop :=
  ∃ user ∈ w.users, user.deletedAt = none ∧ w.text (pwdResetKey x) = some user.id.str

instance (w : World) (x : String) : Decidable (w.Redeemable x) :=
  inferInstanceAs (Decidable (∃ user ∈ w.users, _ ∧ _))

/-- A lookup of a token that leads to an account finds no other call between its lookup
and its deletion of the key. -/
def RedeemsAlone {ι : Type} (x : String) (c : Threads ι) : Act ι Nat → Prop
  | .drift _ => True
  | .step i => c.next i = some (.get (pwdResetKey x)) → c.world.Redeemable x →
      ∀ k, (c.next k).any (Cmd.redeems x) = false

instance {ι : Type} [Fintype ι] (x : String) (c : Threads ι) :
    (a : Act ι Nat) → Decidable (RedeemsAlone x c a)
  | .drift _ => instDecidableTrue
  | .step i => inferInstanceAs (Decidable (c.next i = some (.get (pwdResetKey x)) →
      c.world.Redeemable x → ∀ k, (c.next k).any (Cmd.redeems x) = false))

/-! ## The moves of a reset -/

/-- How far a call has come with its token. -/
inductive Redemption where
  | asking
  | refused
  /-- The token names a user id that is no UUID. -/
  | malformed
  /-- The lookup has found the id `u`. -/
  | seeking (u : UUID)
  | loaded (user : User)
  /-- The hash is assigned, the key is still there. -/
  | assigned (user : User)
  /-- The key is deleted. -/
  | spent (user : User)
  | committed

namespace Redemption

/-- Between the lookup and the deletion. -/
def underWay : Redemption → Prop
  | seeking _ | loaded _ | assigned _ => True
  | _ => False

/-- Past the lookup, with the id `u`. -/
def holds (u : UUID) : Redemption → Prop
  | seeking v => v = u
  | loaded _ | assigned _ | spent _ | committed => True
  | _ => False

end Redemption

/-- A command that ends the refresh tokens of a user. -/
def Cmd.revokes : Cmd → Prop
  | .smembers _ => True
  | .delete ks => ∀ y, pwdResetKey y ∉ ks
  | _ => False

/-- The moves of a reset with the token `x`, whose new password hashes to `h`. -/
inductive RedeemMove (x h : String) : Redemption → Cmd → State → Redemption → Prop
  | miss {l : Session} {w : World} (htext : w.text (pwdResetKey x) = none) :
      RedeemMove x h .asking (.get (pwdResetKey x)) (l, w) .refused
  | garbled {l : Session} {w : World} {s : String} (htext : w.text (pwdResetKey x) = some s)
      (hparse : UUID.parse s = none) :
      RedeemMove x h .asking (.get (pwdResetKey x)) (l, w) .malformed
  | hit {l : Session} {w : World} {u : UUID} (htext : w.text (pwdResetKey x) = some u.str) :
      RedeemMove x h .asking (.get (pwdResetKey x)) (l, w) (.seeking u)
  | missing {l : Session} {w : World} {u : UUID}
      (hfind : (visibleRows l w).find? (fun row => row.deletedAt.isNone && row.id == u) = none) :
      RedeemMove x h (.seeking u) (.getById u) (l, w) .refused
  | found {l : Session} {w : World} {u : UUID} {user : User}
      (hfind : (visibleRows l w).find? (fun row => row.deletedAt.isNone && row.id == u) =
        some user) : RedeemMove x h (.seeking u) (.getById u) (l, w) (.loaded user)
  | assign {user : User} {s : State} :
      RedeemMove x h (.loaded user) (.assignPasswordHash user h) s (.assigned user)
  | spend {user : User} {s : State} :
      RedeemMove x h (.assigned user) (.delete {pwdResetKey x}) s (.spent user)
  | revoke {user : User} {c : Cmd} {s : State} (hc : c.revokes) :
      RedeemMove x h (.spent user) c s (.spent user)
  | commit {user : User} {s : State} : RedeemMove x h (.spent user) .commit s .committed
  | rollback {s : State} : RedeemMove x h .refused .rollback s .refused
  | rollbackMalformed {s : State} : RedeemMove x h .malformed .rollback s .malformed

/-- How a reset ends. -/
inductive RedeemEnd : Redemption → Except Exc Reply → Prop
  | refused : RedeemEnd .refused (.error (.invalidTokenError resetMessage))
  | malformed : RedeemEnd .malformed (.error .valueError)
  | committed : RedeemEnd .committed (.ok .none)

/-- How the body of a reset ends. -/
inductive RedeemBodyEnd : Redemption → Except Exc Unit → Prop
  | refused : RedeemBodyEnd .refused (.error (.invalidTokenError resetMessage))
  | malformed : RedeemBodyEnd .malformed (.error .valueError)
  | spent {user : User} : RedeemBodyEnd (.spent user) (.ok ())

theorem revokeAllRefreshTokens_redeems {env : Env} {x h : String} (user : User) :
    Obeys (exec env) (RedeemMove x h) RedeemBodyEnd (.spent user)
      (revokeAllRefreshTokens user.id) := by
  simp only [revokeAllRefreshTokens, perform_bind, obeys_call]
  rintro ⟨l, w⟩
  refine ⟨_, .revoke trivial, ?_⟩
  simp only [exec, Store.smembers, done_ok_bind]
  by_cases hempty : w.redis.sets (userTokensKey user.id) = ∅
  · simp only [hempty, if_true, pure_eq, done_ok_bind, obeys_call]
    intro s
    exact ⟨_, .revoke (by simp [Cmd.revokes]), .spent⟩
  · simp only [hempty, if_false, obeys_call]
    intro s
    refine ⟨_, .revoke (by simp [Cmd.revokes]), ?_⟩
    intro s
    exact ⟨_, .revoke (by simp [Cmd.revokes]), .spent⟩

theorem resetPassword_redeems (env : Env) (x newPassword salt : String) :
    Obeys (exec env) (RedeemMove x (env.hash newPassword salt)) RedeemBodyEnd .asking
      (resetPassword env x newPassword salt) := by
  simp only [resetPassword, perform_bind, obeys_call]
  rintro ⟨l, w⟩
  cases htext : (w.redis.get w.now (pwdResetKey x)).map Value.str with
  | none =>
    refine ⟨_, .miss htext, ?_⟩
    simp only [exec, htext, done_ok_bind]
    exact .refused
  | some userId =>
    cases hid : UUID.parse userId with
    | none =>
      refine ⟨_, .garbled htext hid, ?_⟩
      simp only [exec, htext, done_ok_bind, uuidOf, hid, throw_eq, done_error_bind]
      exact .malformed
    | some id =>
      obtain rfl := UUID.parse_eq_some.mp hid
      refine ⟨_, .hit htext, ?_⟩
      simp only [exec, htext, uuidOf, hid, pure_eq, done_ok_bind, obeys_call]
      rintro ⟨l, w⟩
      cases hfind : (visibleRows l w).find? fun u => u.deletedAt.isNone && u.id == id with
      | none =>
        refine ⟨_, .missing hfind, ?_⟩
        exact .refused
      | some user =>
        refine ⟨_, .found hfind, ?_⟩
        intro s
        refine ⟨_, .assign, ?_⟩
        intro s
        exact ⟨_, .spend, revokeAllRefreshTokens_redeems user⟩

/-- Every reset keeps to its moves, whatever runs beside it. -/
theorem resets_obey (env : Env) (x newPassword salt : String) :
    Obeys (exec env) (RedeemMove x (env.hash newPassword salt)) RedeemEnd .asking
      ((Request.resetPassword x newPassword salt).program env) := by
  have hcaught : Obeys (exec env) (RedeemMove x (env.hash newPassword salt))
      (fun φ o => match o with
        | .ok _ => φ = .committed
        | .error e => RedeemEnd φ (.error e)) .asking
      (getDb (resetPassword env x newPassword salt)) := by
    unfold getDb
    apply Obeys.catch (F := fun φ o => match o with
      | .ok _ => φ = .committed
      | .error e => RedeemBodyEnd φ (.error e))
    · apply (resetPassword_redeems env x newPassword salt).bind
      · rintro _ _ ⟨⟩ s
        exact ⟨_, .commit, rfl⟩
      · intro φ e he
        exact he
    · rintro _ _ rfl
      rfl
    · rintro φ e he s
      cases he with
      | refused => exact ⟨_, .rollback, .refused⟩
      | malformed => exact ⟨_, .rollbackMalformed, .malformed⟩
  apply hcaught.bind
  · rintro _ _ rfl
    exact .committed
  · intro φ e he
    exact he

/-! ## What holds at every moment -/

section Runs
variable {ι : Type} {env : Env} {w : World} {x : String} {u : UUID} {hash : ι → String}
  {φ : ι → Redemption} {c : Threads ι}

/-- A call that has not deleted the key, with its database session. -/
inductive Early (w : World) (u : UUID) (h : String) : Redemption → Session → Prop
  | asking : Early w u h .asking []
  | refused : Early w u h .refused []
  | seeking : Early w u h (.seeking u) []
  | loaded {user : User} (huser : w.userById u = some user) : Early w u h (.loaded user) []
  | assigned {user : User} (huser : w.userById u = some user) :
      Early w u h (.assigned user) [.passwordHash user h]

/-- The call that has deleted the key, with its database session and the world. -/
inductive Late (w : World) (u : UUID) (h : String) : Redemption → Session → World → Prop
  | spent {user : User} {w' : World} (huser : w.userById u = some user)
      (husers : w'.users = w.users) : Late w u h (.spent user) [.passwordHash user h] w'
  | committed {w' : World} (hhash : (w'.userById u).map (·.passwordHash) = some h) :
      Late w u h .committed [] w'

/-- Nobody has deleted the key, and if there is an account for it, one call at most is
between its lookup and its deletion. -/
structure Unredeemed (w : World) (x : String) (u : UUID) (hash : ι → String)
    (φ : ι → Redemption) (c : Threads ι) : Prop where
  users : c.world.users = w.users
  token : ∀ s, c.world.text (pwdResetKey x) = some s → s = u.str
  early : ∀ i, Early w u (hash i) (φ i) (c.threads i).locals
  sole : w.userById u ≠ none → ∀ i k, (φ i).underWay → (φ k).underWay → i = k

/-- The call `t` has deleted the key; no other call is past its lookup or will ever be. -/
structure RedeemedBy (w : World) (x : String) (u : UUID) (hash : ι → String)
    (φ : ι → Redemption) (c : Threads ι) (t : ι) : Prop where
  taker : Late w u (hash t) (φ t) (c.threads t).locals c.world
  others : ∀ i, i ≠ t → (φ i = .asking ∨ φ i = .refused) ∧ (c.threads i).locals = []
  gone : c.world.text (pwdResetKey x) = none

theorem Unredeemed.start (requests : ι → Request)
    (htoken : ∀ s, w.text (pwdResetKey x) = some s → s = u.str) :
    Unredeemed w x u hash (fun _ => .asking) (beside env w requests) where
  users := rfl
  token := htoken
  early _ := .asking
  sole _ _ _ hi := absurd hi id

/-- Between its lookup and its deletion a call is about to take one of the steps between. -/
theorem redeems_of_underWay
    (hobey : AllObey (machine env) (fun i => RedeemMove x (hash i)) (fun _ => RedeemEnd) φ c)
    {i : ι} (hi : (φ i).underWay) : (c.next i).any (Cmd.redeems x) = true := by
  have h := hobey i
  generalize φ i = ψ at h hi
  have hend : ∀ o, ¬ RedeemEnd ψ o := by
    intro o ho
    cases ho <;> exact hi
  obtain ⟨cmd, φ', hnext, hm⟩ := h.exists_next hend ((c.threads i).locals, c.world)
  rw [Config.next, hnext]
  cases hm with
  | missing | found | assign => rfl
  | spend => simp [Cmd.redeems]
  | _ => exact absurd hi id

/-- No call sets the key. -/
theorem RedeemMove.text_before {h : String} {ψ ψ' : Redemption} {cmd : Cmd} {l : Session}
    {w' : World} (hm : RedeemMove x h ψ cmd (l, w') ψ') {s : String}
    (htext : (exec env cmd (l, w')).2.2.text (pwdResetKey x) = some s) :
    w'.text (pwdResetKey x) = some s := by
  cases hm with
  | spend => simp [exec, World.text, Store.get] at htext
  | revoke hc =>
    cases cmd with
    | delete ks => simpa [exec, World.text, Store.get, hc x] using htext
    | smembers key => exact htext
    | _ => exact absurd hc id
  | _ => exact htext

theorem Early.holds {h : String} {ψ : Redemption} {l : Session} (he : Early w u h ψ l)
    (hψ : ψ.underWay) : ψ.holds u := by
  cases he with
  | seeking => exact rfl
  | loaded | assigned => trivial
  | _ => exact absurd hψ id

/-- What a call does before it has deleted the key. -/
theorem Early.move {h : String} {ψ ψ' : Redemption} {cmd : Cmd} {l : Session} {w' : World}
    (he : Early w u h ψ l) (husers : w'.users = w.users)
    (htoken : ∀ s, w'.text (pwdResetKey x) = some s → s = u.str)
    (hm : RedeemMove x h ψ cmd (l, w') ψ') :
    (Early w u h ψ' (exec env cmd (l, w')).2.1 ∧ cmd ≠ .commit ∧
      (ψ'.underWay → ψ.underWay ∨
        (cmd = .get (pwdResetKey x) ∧ w'.text (pwdResetKey x) = some u.str))) ∨
    (∃ user, ψ = .assigned user ∧ w.userById u = some user ∧ ψ' = .spent user ∧
      cmd = .delete {pwdResetKey x}) := by
  cases he with
  | asking =>
    left
    cases hm with
    | miss htext => exact ⟨.refused, by simp, fun hway => absurd hway id⟩
    | garbled htext hparse =>
      rw [htoken _ htext, UUID.parse_str] at hparse
      cases hparse
    | hit htext =>
      obtain rfl := UUID.str_inj.mp (htoken _ htext)
      exact ⟨.seeking, by simp, fun _ => .inr ⟨rfl, htext⟩⟩
  | refused =>
    cases hm
    exact .inl ⟨.refused, by simp, fun hway => absurd hway id⟩
  | seeking =>
    left
    cases hm with
    | missing hfind => exact ⟨.refused, by simp, fun hway => absurd hway id⟩
    | found hfind =>
      rename_i user
      have huser : w.userById u = some user := by
        simpa [visibleRows, husers, World.userById] using hfind
      exact ⟨.loaded huser, by simp, fun _ => .inl trivial⟩
  | loaded huser =>
    cases hm
    exact .inl ⟨.assigned huser, by simp, fun _ => .inl trivial⟩
  | assigned huser =>
    cases hm
    exact .inr ⟨_, rfl, huser, rfl, rfl⟩

/-- What the call that has deleted the key does next. -/
theorem Late.move {h : String} {ψ ψ' : Redemption} {cmd : Cmd} {l : Session} {w' : World}
    (hl : Late w u h ψ l w') (hm : RedeemMove x h ψ cmd (l, w') ψ') :
    Late w u h ψ' (exec env cmd (l, w')).2.1 (exec env cmd (l, w')).2.2 := by
  cases hl with
  | @spent user _ huser husers =>
    cases hm with
    | revoke hc =>
      cases cmd with
      | smembers key => exact .spent huser husers
      | delete ks => exact .spent huser husers
      | _ => exact absurd hc id
    | commit =>
      refine .committed ?_
      have hsame : ∀ row : User,
          (((UserWrite.passwordHash user h).applyRow w'.now row).deletedAt.isNone &&
            ((UserWrite.passwordHash user h).applyRow w'.now row).id == u) =
          (row.deletedAt.isNone && row.id == u) := by
        intro row
        simp only [UserWrite.applyRow]
        split <;> rfl
      have hfind : w'.users.find? (fun row => row.deletedAt.isNone && row.id == u) = some user := by
        rw [husers]
        exact huser
      simp only [exec, World.userById, List.foldl_cons, List.foldl_nil, UserWrite.apply,
        List.find?_map, Function.comp_def, hsame, hfind, Option.map_some]
      by_cases hchange : user.passwordHash = h <;> simp [UserWrite.applyRow, hchange]
  | committed hhash => cases hm

/-- Only a thread's own move changes its phase and its session. -/
theorem Unredeemed.drift [DecidableEq ι] (h : Unredeemed w x u hash φ c) (n : Nat) :
    Unredeemed w x u hash φ (c.step (machine env) (.drift n)) where
  users := h.users
  token s hs := h.token s (World.text_of_later hs)
  early := h.early
  sole := h.sole

theorem RedeemedBy.drift [DecidableEq ι] {t : ι} (h : RedeemedBy w x u hash φ c t) (n : Nat) :
    RedeemedBy w x u hash φ (c.step (machine env) (.drift n)) t where
  taker := by
    have ht := h.taker
    generalize φ t = ψ at ht
    rw [Config.threads_drift]
    generalize (c.threads t).locals = l at ht
    cases ht with
    | spent huser husers => exact .spent huser husers
    | committed hhash => exact .committed hhash
  others := h.others
  gone := by
    rw [Option.eq_none_iff_forall_ne_some]
    intro s hs
    exact absurd (h.gone.symm.trans (World.text_of_later hs)) (by simp)

variable [DecidableEq ι] {i : ι} {cmd : Cmd} {k : Except Exc cmd.Val → AuthM Reply}
  {φ' : Redemption}

theorem Unredeemed.move
    (hobey : AllObey (machine env) (fun i => RedeemMove x (hash i)) (fun _ => RedeemEnd) φ c)
    (h : Unredeemed w x u hash φ c) (hp : (c.threads i).prog = .call cmd k)
    (hm : RedeemMove x (hash i) (φ i) cmd ((c.threads i).locals, c.world) φ')
    (hmeets : RedeemsAlone x c (.step i)) :
    Unredeemed w x u hash (Function.update φ i φ') (c.issue (machine env) i cmd k) ∨
      ∃ t, RedeemedBy w x u hash (Function.update φ i φ') (c.issue (machine env) i cmd k) t := by
  have hmove : (Early w u (hash i) φ' (exec env cmd ((c.threads i).locals, c.world)).2.1 ∧ _) ∨ _ :=
    (h.early i).move h.users h.token hm
  rcases hmove with ⟨hearly, hcmd, hway⟩ | ⟨user, hφ, huser, rfl, rfl⟩
  · left
    refine ⟨?_, ?_, ?_, ?_⟩
    · rw [world_issue, exec_users (.inl hcmd), h.users]
    · intro s hs
      rw [world_issue] at hs
      exact h.token s (hm.text_before hs)
    · exact forall_issue (P := fun j => Early w u (hash j)) hearly fun j _ => h.early j
    · -- a call that gets past its lookup finds no other one under way
      intro haccount
      have halone : φ'.underWay → ∀ j, j ≠ i → ¬ (φ j).underWay := by
        intro hφ' j hj hjway
        rcases hway hφ' with hi | ⟨rfl, htext⟩
        · exact hj (h.sole haccount j i hjway hi)
        · obtain ⟨user, huser⟩ := Option.ne_none_iff_exists'.mp haccount
          have hredeemable : c.world.Redeemable x := by
            refine ⟨user, ?_, ?_, ?_⟩
            · rw [h.users]
              exact List.mem_of_find?_eq_some huser
            · have hp := List.find?_some huser
              simp only [Bool.and_eq_true, Option.isNone_iff_eq_none] at hp
              exact hp.1
            · rw [World.id_of_userById huser]
              exact htext
          have hnone := hmeets (by simp [Config.next, hp]) hredeemable j
          rw [redeems_of_underWay hobey hjway] at hnone
          cases hnone
      exact sole_update (h.sole haccount) halone
  · -- the sole call under way deletes the key
    right
    have hi : (φ i).underWay := by rw [hφ]; trivial
    refine ⟨i, ?_, ?_, ?_⟩
    · have he := h.early i
      rw [hφ] at he
      rw [Function.update_self, Config.threads_issue_self, world_issue]
      generalize (c.threads i).locals = l at he
      cases he
      exact .spent huser h.users
    · intro j hj
      rw [Function.update_of_ne hj, Config.threads_issue_of_ne hj]
      have hjway : ¬ (φ j).underWay := fun hjway =>
        hj (h.sole (by rw [huser]; simp) j i hjway hi)
      have he := h.early j
      generalize φ j = ψ at he hjway
      generalize (c.threads j).locals = l at he
      cases he with
      | asking => exact ⟨.inl rfl, rfl⟩
      | refused => exact ⟨.inr rfl, rfl⟩
      | _ => exact absurd trivial hjway
    · rw [world_issue]
      simp [exec, World.text, Store.get]

theorem RedeemedBy.move {t : ι} (h : RedeemedBy w x u hash φ c t)
    (hm : RedeemMove x (hash i) (φ i) cmd ((c.threads i).locals, c.world) φ') :
    RedeemedBy w x u hash (Function.update φ i φ') (c.issue (machine env) i cmd k) t := by
  have hgone : (c.issue (machine env) i cmd k).world.text (pwdResetKey x) = none := by
    rw [Option.eq_none_iff_forall_ne_some]
    intro s hs
    rw [world_issue] at hs
    exact absurd (h.gone.symm.trans (hm.text_before hs)) (by simp)
  by_cases hi : i = t
  · subst hi
    refine ⟨?_, ?_, hgone⟩
    · rw [Function.update_self, Config.threads_issue_self, world_issue]
      exact h.taker.move hm
    · intro j hj
      rw [Function.update_of_ne hj, Config.threads_issue_of_ne hj]
      exact h.others j hj
  · -- the key is gone: the call finds nothing
    obtain ⟨hφ, hl⟩ := h.others i hi
    have hquiet : φ' = .refused ∧ (exec env cmd ((c.threads i).locals, c.world)).2 =
        ([], c.world) := by
      rw [hl] at hm ⊢
      rcases hφ with hφ | hφ
      · rw [hφ] at hm
        cases hm with
        | miss htext => exact ⟨rfl, rfl⟩
        | garbled htext hparse => exact absurd (h.gone.symm.trans htext) (by simp)
        | hit htext => exact absurd (h.gone.symm.trans htext) (by simp)
      · rw [hφ] at hm
        cases hm
        exact ⟨rfl, rfl⟩
    refine ⟨?_, ?_, hgone⟩
    · rw [Function.update_of_ne (Ne.symm hi), Config.threads_issue_of_ne (Ne.symm hi), world_issue,
        hquiet.2]
      exact h.taker
    · intro j hj
      by_cases hji : j = i
      · subst hji
        rw [Function.update_self, Config.threads_issue_self]
        exact ⟨.inr hquiet.1, congrArg Prod.fst hquiet.2⟩
      · rw [Function.update_of_ne hji, Config.threads_issue_of_ne hji]
        exact h.others j hj

/-- Nobody has deleted the key yet, or one call has. -/
def Redeeming (w : World) (x : String) (u : UUID) (hash : ι → String) (φ : ι → Redemption)
    (c : Threads ι) : Prop :=
  Unredeemed w x u hash φ c ∨ ∃ t, RedeemedBy w x u hash φ c t

theorem Redeeming.drift (h : Redeeming w x u hash φ c) (n : Nat) :
    Redeeming w x u hash φ (c.step (machine env) (.drift n)) :=
  h.imp (fun h => h.drift n) fun ⟨t, h⟩ => ⟨t, h.drift n⟩

theorem Redeeming.move
    (hobey : AllObey (machine env) (fun i => RedeemMove x (hash i)) (fun _ => RedeemEnd) φ c)
    (h : Redeeming w x u hash φ c) (hp : (c.threads i).prog = .call cmd k)
    (hm : RedeemMove x (hash i) (φ i) cmd ((c.threads i).locals, c.world) φ')
    (hmeets : RedeemsAlone x c (.step i)) :
    Redeeming w x u hash (Function.update φ i φ') (c.issue (machine env) i cmd k) := by
  rcases h with h | ⟨t, h⟩
  · exact h.move hobey hp hm hmeets
  · exact .inr ⟨t, h.move hm⟩

omit [DecidableEq ι] in
/-- A call about to take one of the steps between its lookup and its deletion is there. -/
theorem underWay_of_redeems
    (hobey : AllObey (machine env) (fun i => RedeemMove x (hash i)) (fun _ => RedeemEnd) φ c)
    {i : ι} (hi : (c.next i).any (Cmd.redeems x) = true) : (φ i).underWay := by
  obtain ⟨cmd, hnext, hcmd⟩ := (Option.any_eq_true _ _).mp hi
  obtain ⟨φ', hm⟩ := (hobey i).move_of_next hnext ((c.threads i).locals, c.world)
  generalize φ i = ψ at hm
  cases hm with
  | missing | found | assign | spend => trivial
  | revoke hc =>
    cases cmd with
    | delete ks =>
      have hks : ks = {pwdResetKey x} := by simpa [Cmd.redeems] using hcmd
      exact absurd (hks ▸ Finset.mem_singleton_self _) (hc x)
    | smembers key => cases hcmd
    | _ => exact absurd hc id
  | _ => cases hcmd

omit [DecidableEq ι] in
/-- A call that has ended was refused, or it deleted the key and its hash is in place. -/
theorem ended_redemption (hJ : Redeeming w x u hash φ c) {i : ι} {o : Except Exc Reply}
    (hfinal : RedeemEnd (φ i) o) :
    o = .error (.invalidTokenError resetMessage) ∨
      (o = .ok .none ∧ RedeemedBy w x u hash φ c i ∧
        (c.world.userById u).map (·.passwordHash) = some (hash i)) := by
  rcases hJ with h | ⟨t, h⟩
  · left
    have he := h.early i
    generalize φ i = ψ at he hfinal
    generalize (c.threads i).locals = l at he
    cases he with
    | refused =>
      cases hfinal
      rfl
    | _ => cases hfinal
  · by_cases hi : i = t
    · subst hi
      have hl := h.taker
      generalize φ i = ψ at hl hfinal
      generalize (c.threads i).locals = l at hl
      generalize hw : c.world = w' at hl
      cases hl with
      | spent => cases hfinal
      | committed hhash =>
        cases hfinal
        exact .inr ⟨rfl, h, hhash⟩
    · left
      rcases (h.others i hi).1 with hφ | hφ <;> rw [hφ] at hfinal <;> cases hfinal
      rfl

omit [DecidableEq ι] in
theorem RedeemedBy.unique {t t' : ι} (h : RedeemedBy w x u hash φ c t)
    (h' : RedeemedBy w x u hash φ c t') : t = t' := by
  by_contra hne
  have hl := h.taker
  generalize (c.threads t).locals = l at hl
  rcases (h'.others t hne).1 with hφ | hφ <;> rw [hφ] at hl <;> cases hl

/-! ## Two calls past their lookups -/

/-- There is an account with the id `u`. -/
def World.HasAccount (w : World) (u : UUID) : Prop :=
  ∃ user ∈ w.users, user.deletedAt = none ∧ user.id = u

/-- No request removes an account. -/
theorem World.HasAccount.exec {cmd : Cmd} {l : Session} {w' : World} (h : w'.HasAccount u) :
    (exec env cmd (l, w')).2.2.HasAccount u := by
  by_cases hcmd : cmd = .commit
  · subst hcmd
    have happly : ∀ (write : UserWrite) {users : List User} {now : Nat},
        (∃ user ∈ users, user.deletedAt = none ∧ user.id = u) →
        ∃ user ∈ UserWrite.apply now users write, user.deletedAt = none ∧ user.id = u := by
      rintro write users now ⟨user, hmem, hdel, hid⟩
      have hkeeps : (write.applyRow now user).deletedAt = none ∧
          (write.applyRow now user).id = u := by
        cases write with
        | insert row => exact ⟨hdel, hid⟩
        | emailVerified loaded | passwordHash loaded hash =>
          simp only [UserWrite.applyRow]
          split <;> exact ⟨hdel, hid⟩
      cases write with
      | insert row => exact ⟨user, List.mem_append_left _ hmem, hdel, hid⟩
      | emailVerified loaded | passwordHash loaded hash =>
        exact ⟨_, List.mem_map_of_mem hmem, hkeeps⟩
    simp only [World.HasAccount, Auth.exec] at h ⊢
    generalize w'.users = users at h
    induction l generalizing users with
    | nil => exact h
    | cons write l ih => exact ih _ (happly write h)
  · unfold World.HasAccount
    rw [exec_users (.inl hcmd)]
    exact h

/-- Past its lookup, a call whose account is there does not turn back. -/
theorem RedeemMove.holds {h : String} {ψ ψ' : Redemption} {cmd : Cmd} {l : Session} {w' : World}
    (hm : RedeemMove x h ψ cmd (l, w') ψ') (hψ : ψ.holds u) (haccount : w'.HasAccount u) :
    ψ'.holds u := by
  cases hm with
  | missing hfind =>
    obtain ⟨user, hmem, hdel, hid⟩ := haccount
    have hnone := List.find?_eq_none.mp hfind user (List.mem_append_left _ hmem)
    simp [hdel, hid, show _ = u from hψ] at hnone
  | found | assign | spend | revoke | commit => trivial
  | _ => exact absurd hψ id

/-- Two calls that are both past their lookups of one account both succeed once they end. -/
theorem both_succeed {j : ι} (hobey : AllObey (machine env) (fun i => RedeemMove x (hash i))
      (fun _ => RedeemEnd) φ c) (hi : (φ i).holds u) (hj : (φ j).holds u)
    (haccount : c.world.HasAccount u) (schedule : List (Act ι Nat))
    (hended : ∀ a, ((c.run (machine env) schedule).outcome a).isSome) :
    Succeeds (c.run (machine env) schedule) i ∧ Succeeds (c.run (machine env) schedule) j := by
  obtain ⟨ψ, hobey', hψi, hψj, -⟩ := run_invariant_forall
    (J := fun ψ c => (ψ i).holds u ∧ (ψ j).holds u ∧ c.world.HasAccount u)
    (fun ψ c n _ hJ => ⟨hJ.1, hJ.2.1, hJ.2.2⟩)
    (fun ψ c a cmd k ψ' _ hJ _ hm => by
      have hkeep : ∀ b, (ψ b).holds u → (Function.update ψ a ψ' b).holds u := by
        intro b hb
        by_cases hba : b = a
        · subst hba
          rw [Function.update_self]
          exact hm.holds hb hJ.2.2
        · rwa [Function.update_of_ne hba]
      refine ⟨hkeep i hJ.1, hkeep j hJ.2.1, ?_⟩
      rw [world_issue]
      exact hJ.2.2.exec)
    hobey ⟨hi, hj, haccount⟩ schedule
  have hsucceeds : ∀ a, (ψ a).holds u → Succeeds (c.run (machine env) schedule) a := by
    intro a ha
    obtain ⟨o, ho⟩ := Option.isSome_iff_exists.mp (hended a)
    have hfinal := hobey'.final ho
    generalize ψ a = ψa at hfinal ha
    cases hfinal with
    | committed => exact ho
    | _ => exact absurd ha id
  exact ⟨hsucceeds i hψi, hsucceeds j hψj⟩

/-! ## Single use -/

/-- One call at most has succeeded, every other one that has ended raised
`InvalidTokenError`, and a call that has succeeded has left its own hash on the account. -/
structure SpentOnce {ι : Type} (u : UUID) (hash : ι → String) (c : Threads ι) : Prop where
  once : ∀ i k, Succeeds c i → Succeeds c k → i = k
  refused : ∀ i o, c.outcome i = some o →
    Succeeds c i ∨ o = .error (.invalidTokenError resetMessage)
  password : ∀ i, Succeeds c i → (c.world.userById u).map (·.passwordHash) = some (hash i)

omit [DecidableEq ι] in
/-- Once the key is deleted by one call at most, the token is spent once. -/
theorem Redeeming.spentOnce (h : Redeeming w x u hash φ c)
    (hobey : AllObey (machine env) (fun i => RedeemMove x (hash i)) (fun _ => RedeemEnd) φ c) :
    SpentOnce u hash c := by
  have hended := fun i o (ho : c.outcome i = some o) => ended_redemption h (hobey.final ho)
  have hwinner : ∀ i, Succeeds c i → RedeemedBy w x u hash φ c i ∧
      (c.world.userById u).map (·.passwordHash) = some (hash i) := by
    intro i hi
    rcases hended i _ hi with he | ⟨-, h⟩
    · cases he
    · exact h
  refine ⟨?_, ?_, fun i hi => (hwinner i hi).2⟩
  · intro i k hi hk
    exact (hwinner i hi).1.unique (hwinner k hk).1
  · intro i o ho
    rcases hended i o ho with he | ⟨rfl, -⟩
    · exact .inr he
    · exact .inl ho

omit [DecidableEq ι] in
/-- A call whose GET returns the account has asked, and goes on with it. -/
theorem Unredeemed.finds (h : Unredeemed w x u hash φ c)
    (hm : RedeemMove x (hash i) (φ i) (.get (pwdResetKey x)) ((c.threads i).locals, c.world) φ')
    (htext : c.world.text (pwdResetKey x) = some u.str) : φ i = .asking ∧ φ' = .seeking u := by
  generalize φ i = ψ at hm
  cases hm with
  | miss hnone => exact absurd (hnone.symm.trans htext) (by simp)
  | garbled hsome hparse =>
    rw [h.token _ hsome, UUID.parse_str] at hparse
    cases hparse
  | hit hsome => exact ⟨rfl, by rw [UUID.str_inj.mp (h.token _ hsome)]⟩
  | revoke hc => exact absurd hc id

/-- A call that finds the token while another one is under way succeeds in the end, and so
does the other. -/
theorem Unredeemed.crowded (h : Unredeemed w x u hash φ c)
    (hobey : AllObey (machine env) (fun i => RedeemMove x (hash i)) (fun _ => RedeemEnd) φ c)
    {k : Except Exc (Option String) → AuthM Reply}
    (hp : (c.threads i).prog = .call (.get (pwdResetKey x)) k)
    (haccount : c.world.HasAccount u) (htext : c.world.text (pwdResetKey x) = some u.str)
    {j : ι} (hj : (φ j).underWay) {as : List (Act ι Nat)} {c' : Threads ι}
    (hrun : c' = (c.issue (machine env) i (.get (pwdResetKey x)) k).run (machine env) as)
    (hended : ∀ a, (c'.outcome a).isSome) : j ≠ i ∧ Succeeds c' i ∧ Succeeds c' j := by
  obtain ⟨φ', hm, hobey'⟩ := hobey.issue hp
  obtain ⟨hi, rfl⟩ := h.finds hm htext
  have hne : j ≠ i := by
    rintro rfl
    rw [hi] at hj
    exact hj
  subst hrun
  refine ⟨hne, both_succeed (u := u) hobey' ?_ ?_ ?_ as hended⟩
  · rw [Function.update_self]
    exact rfl
  · rw [Function.update_of_ne hne]
    exact (h.early j).holds hj
  · rw [world_issue]
    exact haccount

end Runs

/-- Any number of resets with one token, in every order of their commands: the token is
spent once, provided that no call finds it while another one is between its lookup and its
deletion of the key; and when all calls have ended, only then. -/
theorem reset_token_spent_once {ι : Type} [DecidableEq ι] (env : Env) (w : World) (x : String)
    (u : UUID) (htoken : ∀ s, w.text (pwdResetKey x) = some s → s = u.str)
    (newPassword salt : ι → String) (schedule : List (Act ι Nat)) :
    let start := beside env w (resets x newPassword salt)
    let c := start.run (machine env) schedule
    let alone := start.Along (machine env) (RedeemsAlone x) schedule
    let once := SpentOnce u (fun i => env.hash (newPassword i) (salt i)) c
    (alone → once) ∧ ((∀ i, (c.outcome i).isSome) → (once ↔ alone)) := by
  intro start c alone once
  have hstart : AllObey (machine env)
      (fun i => RedeemMove x (env.hash (newPassword i) (salt i))) (fun _ => RedeemEnd)
      (fun _ => .asking) start := fun i => resets_obey env x (newPassword i) (salt i)
  have hreach : ∀ as, start.Along (machine env) (RedeemsAlone x) as → _ := fun as has =>
    run_invariant
      (J := Redeeming w x u fun i => env.hash (newPassword i) (salt i))
      (fun φ c n _ hJ _ => hJ.drift n)
      (fun φ c i cmd k φ' hobey hJ hp hm hmeets => hJ.move hobey hp hm hmeets)
      hstart (.inl (.start _ htoken)) has
  have hforward : alone → once := by
    intro halone
    obtain ⟨φ, hobey, hJ, -⟩ := hreach schedule halone
    exact hJ.spentOnce hobey
  refine ⟨hforward, fun hended => ⟨fun honce => ?_, hforward⟩⟩
  by_contra hnot
  obtain ⟨as, a, bs, rfl, has, ha⟩ := Config.exists_of_not_along hnot
  obtain ⟨φ, hobey, hJ, -⟩ := hreach as has
  cases a with
  | drift n => exact ha trivial
  | step i =>
    -- the call `i` finds the token while the call `j` is under way
    simp only [RedeemsAlone, Classical.not_imp, not_forall, Bool.not_eq_false] at ha
    obtain ⟨hnext, ⟨user, hmem, hdel, htext⟩, j, hj⟩ := ha
    rcases hJ with h | ⟨t, h⟩
    · obtain rfl : user.id = u := UUID.str_inj.mp (h.token _ htext)
      cases hp : ((start.run (machine env) as).threads i).prog with
      | done o => simp [Config.next, hp, next] at hnext
      | call cmd k =>
        obtain rfl : cmd = .get (pwdResetKey x) := by simpa [Config.next, hp, next] using hnext
        have hrun : c = ((start.run (machine env) as).issue (machine env) i _ k).run
            (machine env) bs := by
          rw [← Config.step_of_call hp, ← Config.run_cons, ← Config.run_append]
        obtain ⟨hne, hi, hj⟩ := h.crowded hobey hp ⟨user, hmem, hdel, rfl⟩ htext
          (underWay_of_redeems hobey hj) hrun hended
        exact hne (honce.once j i hj hi)
    · rw [h.gone] at htext
      cases htext

/-! ### Two resets -/

def twoPasswords : Fin 2 → String
  | 0 => "battery staple"
  | 1 => "hunter two"

def twoSalts : Fin 2 → String
  | 0 => "s1"
  | 1 => "s2"

/-- One after the other: the token is spent once. -/
theorem reset_token_spent_once_serial :
    SpentOnce ada.id (fun i => plainEnv.hash (twoPasswords i) (twoSalts i))
      ((beside plainEnv adaResetting (resets "x" twoPasswords twoSalts)).run (machine plainEnv)
        (List.replicate 7 (.step 0) ++ List.replicate 2 (.step 1))) := by
  have htoken : ∀ s, adaResetting.text (pwdResetKey "x") = some s → s = ada.id.str := by
    intro s hs
    have hada : adaResetting.text (pwdResetKey "x") = some ada.id.str := by decide +kernel
    exact Option.some.inj (hs.symm.trans hada)
  refine (reset_token_spent_once plainEnv adaResetting "x" ada.id htoken twoPasswords twoSalts
    (List.replicate 7 (.step 0) ++ List.replicate 2 (.step 1))).1 ?_
  decide +kernel

/-- Both calls look the token up before either deletes it: both succeed. -/
theorem reset_token_spent_twice :
    let c := (beside plainEnv adaResetting (resets "x" twoPasswords twoSalts)).run
      (machine plainEnv) ([.step 0, .step 1] ++ List.replicate 6 (.step 0) ++
        List.replicate 6 (.step 1))
    Succeeds c 0 ∧ Succeeds c 1 ∧
      ¬ SpentOnce ada.id (fun i => plainEnv.hash (twoPasswords i) (twoSalts i)) c := by
  intro c
  have hrun : Succeeds c 0 ∧ Succeeds c 1 := by decide +kernel
  refine ⟨hrun.1, hrun.2, fun honce => ?_⟩
  exact absurd (honce.once 0 1 hrun.1 hrun.2) (by decide)

end TaskMgtApp.Auth
