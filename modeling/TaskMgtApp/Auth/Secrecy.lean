import TaskMgtApp.Auth.Concurrent
import TaskMgtApp.Auth.Footprints
import TaskMgtApp.Auth.Http
import TaskMgtApp.Auth.Instance
import TaskMgtApp.Lib.Lockstep

/-!
# One-time tokens stay secret

`register` and `request_password_reset` draw a token for a mail, and store it in the name of
a key. Until somebody presents the token nothing reads that key: with another token in its
place, every request goes on in step, in every order of the commands, and nobody gets
another answer.
-/
namespace TaskMgtApp.Auth

open TaskMgtApp.Common
open TaskMgtApp.Lib.Program TaskMgtApp.Lib.Program.Prog
open TaskMgtApp.Lib.Interleaving TaskMgtApp.Lib.ExpiringStore TaskMgtApp.Lib.Lockstep

/-! ## Tokens and their keys -/

/-- The one-time tokens that a request presents. -/
def Request.presented : Request → List String
  | .verifyEmail token | .resetPassword token _ _ => [token]
  | _ => []

/-- `y` in the place of `x`. -/
def redraw (x y token : String) : String := if token = x then y else token

/-- The request with the draw `y` in the place of the draw `x`. -/
def Request.redraw (x y : String) : Request → Request
  | .register email password fullName d =>
      .register email password fullName { d with token := Auth.redraw x y d.token }
  | .requestPasswordReset email token => .requestPasswordReset email (Auth.redraw x y token)
  | r => r

/-- The keys that stand for one of the two tokens. -/
def tokenKeys (x y : String) : Finset String :=
  {emailVerifyKey x, emailVerifyKey y, pwdResetKey x, pwdResetKey y}

/-- The Redis keys of a command. -/
def Cmd.keys : Cmd → Finset String
  | .get k | .set k _ _ | .ttl k | .incr k | .expire k _ | .sadd k _ | .srem k _ | .smembers k => {k}
  | .delete ks => ks
  | _ => ∅

/-- A command that touches no hidden key, or a value that is set under hidden keys. -/
inductive Unread (hidden : Finset String) : Matching Cmd.Val Exc
  | same {c : Cmd} (h : Disjoint c.keys hidden) : Unread hidden c c Eq
  | stored {k k' v : String} {ex : Nat} (hk : k ∈ hidden) (hk' : k' ∈ hidden) :
      Unread hidden (.set k v ex) (.set k' v ex) Eq

/-- Worlds that differ in what is kept under hidden keys. -/
structure SameBut (hidden : Finset String) (w w' : World) : Prop where
  now : w'.now = w.now
  users : w'.users = w.users
  issued : w'.issued = w.issued
  redis : ∀ k, k ∉ hidden → SameAt w.redis w'.redis k

section Commands
variable {env : Env} {hidden : Finset String} {w w' : World} {x y : String}

theorem SameBut.refl (hidden : Finset String) (w : World) : SameBut hidden w w :=
  ⟨rfl, rfl, rfl, fun _ _ => .rfl⟩

/-- The same write to both stores. -/
theorem SameBut.write (h : SameBut hidden w w') {s s' : Redis}
    (hs : ∀ k, k ∉ hidden → SameAt s s' k) : SameBut hidden { w with redis := s } { w' with redis := s' } :=
  ⟨h.now, h.users, h.issued, hs⟩

theorem delete_count {s s' : Redis} {t : Nat} {ks : Finset String} (h : ∀ k ∈ ks, SameAt s s' k) :
    (s'.delete t ks).1 = (s.delete t ks).1 := by
  refine congrArg Finset.card (Finset.filter_congr fun k hk => ?_)
  rw [(h k hk).look t, (h k hk).sets]

/-- A command that touches no hidden key returns the same in both worlds. -/
theorem exec_same (env : Env) {c : Cmd} (hc : Disjoint c.keys hidden) (l : Session)
    (h : SameBut hidden w w') :
    (exec env c (l, w)).1 = (exec env c (l, w')).1 ∧ (exec env c (l, w)).2.1 = (exec env c (l, w')).2.1 ∧
      SameBut hidden (exec env c (l, w)).2.2 (exec env c (l, w')).2.2 := by
  have hkeys : ∀ k ∈ c.keys, SameAt w.redis w'.redis k :=
    fun k hk => h.redis k (Finset.disjoint_left.mp hc hk)
  have hvisible : visibleRows l w' = visibleRows l w := by rw [visibleRows, visibleRows, h.users]
  cases c with
  | get k =>
    refine ⟨?_, rfl, h⟩
    simp only [exec, Store.get, h.now, (hkeys k (Finset.mem_singleton_self k)).look]
  | set k v ex =>
    refine ⟨rfl, rfl, h.write fun k' hk' => ?_⟩
    rw [h.now]
    exact (h.redis k' hk').setEx _ _
  | delete ks =>
    refine ⟨?_, rfl, h.write fun k' hk' => ?_⟩
    · simp only [exec, h.now]
      exact congrArg Except.ok (delete_count hkeys).symm
    · rw [h.now]
      exact (h.redis k' hk').delete ks
  | ttl k =>
    refine ⟨?_, rfl, h⟩
    simp only [exec, h.now]
    exact congrArg Except.ok (hkeys k (Finset.mem_singleton_self k)).ttl.symm
  | incr k =>
    rcases incr_alike (t := w.now) (hkeys k (Finset.mem_singleton_self k)) with
      ⟨hi, hi'⟩ | ⟨n, r, r', hi, hi', hsame⟩
    · simp only [exec, h.now, hi, hi']
      exact ⟨trivial, trivial, h⟩
    · simp only [exec, h.now, hi, hi']
      exact ⟨trivial, trivial, rfl, h.users, h.issued, fun k' hk' => hsame k' (h.redis k' hk')⟩
  | expire k seconds =>
    have hk := hkeys k (Finset.mem_singleton_self k)
    refine ⟨?_, rfl, h.write fun k' hk' => ?_⟩
    · simp only [exec, h.now, Store.expire, hk.look]
      cases w.redis.look w.now k <;> rfl
    · rw [h.now]
      exact (h.redis k' hk').expire hk seconds
  | sadd k m =>
    refine ⟨?_, rfl, h.write fun k' hk' => (h.redis k' hk').sadd m⟩
    simp only [exec, Store.sadd, (hkeys k (Finset.mem_singleton_self k)).sets]
  | srem k m =>
    refine ⟨?_, rfl, h.write fun k' hk' => (h.redis k' hk').srem m⟩
    simp only [exec, Store.srem, (hkeys k (Finset.mem_singleton_self k)).sets]
  | smembers k =>
    refine ⟨?_, rfl, h⟩
    simp only [exec, Store.smembers, (hkeys k (Finset.mem_singleton_self k)).sets]
  | getById id =>
    simp only [exec, hvisible]
    exact ⟨trivial, trivial, h⟩
  | getByEmail email =>
    simp only [exec, hvisible]
    exact ⟨trivial, trivial, h⟩
  | add id email passwordHash fullName =>
    have hrow : w'.newUser id email passwordHash fullName = w.newUser id email passwordHash fullName := by
      rw [World.newUser, World.newUser, h.now]
    simp only [exec, hvisible, hrow]
    split <;> exact ⟨rfl, rfl, h⟩
  | assignEmailVerified user => exact ⟨rfl, rfl, h⟩
  | assignPasswordHash user hash => exact ⟨rfl, rfl, h⟩
  | commit =>
    refine ⟨rfl, rfl, h.now, ?_, h.issued, h.redis⟩
    simp only [exec, h.now, h.users]
  | rollback => exact ⟨rfl, rfl, h⟩
  | utcNow =>
    refine ⟨?_, rfl, h⟩
    simp only [exec, h.now]
  | decodeToken token =>
    have hdecode : w'.decodeToken env token = w.decodeToken env token := by
      rw [World.decodeToken, World.decodeToken, h.now, h.issued]
    simp only [exec, hdecode]
    split <;> exact ⟨rfl, rfl, h⟩
  | respond tokens =>
    refine ⟨rfl, rfl, h.now, h.users, ?_, h.redis⟩
    simp only [exec, h.issued]

theorem unread_respects (env : Env) (hidden : Finset String) :
    Respects (machine env) (Unread hidden) (SameBut hidden) where
  exec hmatch l v w h := by
    cases hmatch with
    | same hc => exact exec_same env hc l h
    | @stored k k' value ex hk hk' =>
      refine ⟨rfl, rfl, h.write fun k₀ hk₀ => ?_⟩
      have hne : k₀ ≠ k := fun he => hk₀ (he ▸ hk)
      have hne' : k₀ ≠ k' := fun he => hk₀ (he ▸ hk')
      rw [h.now]
      exact (sameAt_setEx hne _ _).symm.trans ((h.redis k₀ hk₀).trans (sameAt_setEx hne' _ _))
  drift seconds v w h := ⟨congrArg (· + seconds) h.now, h.users, h.issued, h.redis⟩

/-- The keys of all other families are not hidden. -/
theorem not_hidden {k : String} (h : ∀ z, z = x ∨ z = y → k ≠ emailVerifyKey z ∧ k ≠ pwdResetKey z) :
    k ∉ tokenKeys x y := by
  intro hk
  simp only [tokenKeys, Finset.mem_insert, Finset.mem_singleton] at hk
  rcases hk with hk | hk | hk | hk
  · exact (h x (.inl rfl)).1 hk
  · exact (h y (.inr rfl)).1 hk
  · exact (h x (.inl rfl)).2 hk
  · exact (h y (.inr rfl)).2 hk

/-- The token of a link, drawn or redrawn, is set under keys that match. -/
theorem unread_set {key : String → String} (hkey : key = emailVerifyKey ∨ key = pwdResetKey)
    (x y token v : String) (ex : Nat) :
    Unread (tokenKeys x y) (.set (key token) v ex) (.set (key (redraw x y token)) v ex) Eq := by
  have hmem : ∀ z, z = x ∨ z = y → key z ∈ tokenKeys x y := by
    intro z hz
    rcases hkey with rfl | rfl <;> rcases hz with rfl | rfl <;> simp [tokenKeys]
  by_cases hx : token = x
  · subst hx
    rw [redraw, if_pos rfl]
    exact .stored (hmem _ (.inl rfl)) (hmem _ (.inr rfl))
  · rw [redraw, if_neg hx]
    by_cases hy : token = y
    · exact .stored (hmem _ (.inr hy)) (hmem _ (.inr hy))
    · refine .same (Finset.disjoint_singleton_left.mpr (not_hidden fun z hz => ?_))
      have hne : token ≠ z := by rcases hz with rfl | rfl <;> assumption
      rcases hkey with rfl | rfl
      · exact ⟨fun he => hne ((emailVerifyKey_inj ..).mp he), (emailVerifyKey_ne token).2.2.1 z⟩
      · exact ⟨(pwdResetKey_ne token).1 z, fun he => hne ((pwdResetKey_inj ..).mp he)⟩

end Commands

/-! ## Programs -/

section Programs
variable {env : Env} {x y : String}

/-- The command touches no key of the two tokens. -/
abbrev Cmd.Avoids (x y : String) (c : Cmd) : Prop := Disjoint c.keys (tokenKeys x y)

theorem avoids_lock (email : String) : loginLockKey email ∉ tokenKeys x y :=
  not_hidden fun z _ => ⟨(loginLockKey_ne email).1 z, (loginLockKey_ne email).2.2.1 z⟩

theorem avoids_attempts (email : String) : loginAttemptsKey email ∉ tokenKeys x y :=
  not_hidden fun z _ => ⟨(loginAttemptsKey_ne email).1 z, (loginAttemptsKey_ne email).2.2.1 z⟩

theorem avoids_token (j : String) : refreshTokenKey j ∉ tokenKeys x y :=
  not_hidden fun z _ => ⟨(refreshTokenKey_ne j).1 z, (refreshTokenKey_ne j).2.2.2.1 z⟩

theorem avoids_index (u : UUID) : userTokensKey u ∉ tokenKeys x y :=
  not_hidden fun z _ => ⟨(userTokensKey_ne u).1 z, (userTokensKey_ne u).2.2.2.1 z⟩

/-- A link that is presented is another one. -/
theorem avoids_link {key : String → String} (hkey : key = emailVerifyKey ∨ key = pwdResetKey)
    {token : String} (hx : token ≠ x) (hy : token ≠ y) : key token ∉ tokenKeys x y := by
  refine not_hidden fun z hz => ?_
  have hne : token ≠ z := by rcases hz with rfl | rfl <;> assumption
  rcases hkey with rfl | rfl
  · exact ⟨fun he => hne ((emailVerifyKey_inj ..).mp he), (emailVerifyKey_ne token).2.2.1 z⟩
  · exact ⟨(pwdResetKey_ne token).1 z, fun he => hne ((pwdResetKey_inj ..).mp he)⟩

theorem avoids_one {k : String} (hk : k ∉ tokenKeys x y) : Disjoint {k} (tokenKeys x y) :=
  Finset.disjoint_singleton_left.mpr hk

theorem avoids_none : Disjoint (∅ : Finset String) (tokenKeys x y) := Finset.disjoint_empty_left _

theorem avoids_uuidOf (s : String) : (uuidOf s).Only (Cmd.Avoids x y) := by
  unfold uuidOf
  split <;> trivial

theorem avoids_issueTokenPair (userId : UUID) (d : IssueDraws) :
    (issueTokenPair env userId d).Only (Cmd.Avoids x y) := by
  refine .bind (.bind (only_perform.mpr avoids_none) fun _ => trivial) fun _ => ?_
  refine .bind (.bind (.bind (only_perform.mpr avoids_none) fun _ => trivial) fun _ => trivial) fun _ => ?_
  refine .bind (only_perform.mpr (avoids_one (avoids_token _))) fun _ => ?_
  exact .bind (only_perform.mpr (avoids_one (avoids_index _))) fun _ => trivial

theorem avoids_revokeAll (userId : UUID) : (revokeAllRefreshTokens userId).Only (Cmd.Avoids x y) := by
  refine .bind (only_perform.mpr (avoids_one (avoids_index _))) fun jtis => ?_
  have hlast : (redisDelete {userTokensKey userId} >>= fun _ => pure ()).Only (Cmd.Avoids x y) :=
    .bind (only_perform.mpr (avoids_one (avoids_index _))) fun _ => trivial
  have hkeys : Disjoint (jtis.image refreshTokenKey) (tokenKeys x y) := by
    refine Finset.disjoint_left.mpr fun k hk => ?_
    obtain ⟨j, -, rfl⟩ := Finset.mem_image.mp hk
    exact avoids_token j
  split
  · exact hlast
  · exact .bind (only_perform.mpr hkeys) fun _ => hlast

theorem avoids_decode (token : String) : (decodeRefreshToken token).Only (Cmd.Avoids x y) := by
  refine .bind (.catch (only_perform.mpr avoids_none) fun e => ?_) fun p => ?_
  · cases e <;> trivial
  · split <;> trivial

theorem avoids_login (email password : String) (d : IssueDraws) :
    (login env email password d).Only (Cmd.Avoids x y) := by
  refine .bind (only_perform.mpr (avoids_one (avoids_lock _))) fun lockTtl => ?_
  split
  · trivial
  · refine .bind (only_perform.mpr avoids_none) fun user => ?_
    split
    · refine .bind (.bind (only_perform.mpr (avoids_one (avoids_attempts _))) fun count =>
        .bind (only_perform.mpr (avoids_one (avoids_attempts _))) fun _ => ?_) fun _ => trivial
      split
      · exact .bind (only_perform.mpr (avoids_one (avoids_lock _))) fun _ =>
          .bind (only_perform.mpr (avoids_one (avoids_attempts _))) fun _ => trivial
      · trivial
    · split
      · trivial
      · refine .bind (only_perform.mpr (Finset.disjoint_left.mpr fun k hk => ?_)) fun _ =>
          avoids_issueTokenPair _ d
        rcases Finset.mem_insert.mp hk with rfl | hk
        · exact avoids_attempts _
        · obtain rfl := Finset.mem_singleton.mp hk
          exact avoids_lock _

theorem avoids_refresh (token : String) (d : IssueDraws) :
    (refreshAccessToken env token d).Only (Cmd.Avoids x y) := by
  refine .bind (avoids_decode token) fun p =>
    .bind (only_perform.mpr (avoids_one (avoids_token _))) fun stored => ?_
  split
  · trivial
  · exact .bind (only_perform.mpr (avoids_one (avoids_token _))) fun _ =>
      .bind (avoids_uuidOf _) fun userId =>
        .bind (only_perform.mpr (avoids_one (avoids_index _))) fun _ => avoids_issueTokenPair _ d

theorem avoids_logout (token : String) : (logout token).Only (Cmd.Avoids x y) := by
  refine .bind (.catch (.bind (avoids_decode token) fun _ => trivial) fun e => ?_) fun p => ?_
  · cases e <;> trivial
  · cases p with
    | none => trivial
    | some p =>
      exact .bind (only_perform.mpr (avoids_one (avoids_token _))) fun _ =>
        .bind (avoids_uuidOf _) fun userId =>
          .bind (only_perform.mpr (avoids_one (avoids_index _))) fun _ => trivial

theorem avoids_verifyEmail {token : String} (hx : token ≠ x) (hy : token ≠ y) :
    (verifyEmail token).Only (Cmd.Avoids x y) := by
  have hkey := avoids_one (avoids_link (x := x) (y := y) (.inl rfl) hx hy)
  refine .bind (only_perform.mpr hkey) fun userId => ?_
  cases userId with
  | none => trivial
  | some userId =>
    refine .bind (avoids_uuidOf _) fun id => .bind (only_perform.mpr avoids_none) fun user => ?_
    cases user with
    | none => trivial
    | some user =>
      exact .bind (only_perform.mpr avoids_none) fun _ => .bind (only_perform.mpr hkey) fun _ => trivial

theorem avoids_resetPassword {token : String} (hx : token ≠ x) (hy : token ≠ y)
    (newPassword salt : String) : (resetPassword env token newPassword salt).Only (Cmd.Avoids x y) := by
  have hkey := avoids_one (avoids_link (x := x) (y := y) (.inr rfl) hx hy)
  refine .bind (only_perform.mpr hkey) fun userId => ?_
  cases userId with
  | none => trivial
  | some userId =>
    refine .bind (avoids_uuidOf _) fun id => .bind (only_perform.mpr avoids_none) fun user => ?_
    cases user with
    | none => trivial
    | some user =>
      exact .bind (only_perform.mpr avoids_none) fun _ =>
        .bind (only_perform.mpr hkey) fun _ => avoids_revokeAll _

theorem avoids_getDb {α : Type} {body : AuthM α} (h : body.Only (Cmd.Avoids x y)) :
    (getDb body).Only (Cmd.Avoids x y) :=
  .catch (.bind h fun _ => .bind (only_perform.mpr avoids_none) fun _ => trivial)
    fun _ => .bind (only_perform.mpr avoids_none) fun _ => trivial

theorem avoids_respondPair (pair : String × String) : (respondPair pair).Only (Cmd.Avoids x y) :=
  .bind (only_perform.mpr avoids_none) fun _ => trivial

/-- What stands between the two programs is what they answer. -/
def AnswersAlike (r r' : Request) (a b : Reply) : Prop := r.respond (.ok a) = r'.respond (.ok b)

theorem similar_getDb {α : Type} {S : α → α → Prop} {body body' : AuthM α}
    (h : Similar (Unread (tokenKeys x y)) S body body') :
    Similar (Unread (tokenKeys x y)) S (getDb body) (getDb body') := by
  refine .catch (.bind h fun a b hab => ?_) fun e => ?_
  · refine .call (.same avoids_none) fun r r' hr => ?_
    subst hr
    cases r with
    | ok _ => exact .pure hab
    | error e => exact .throw
  · refine .call (.same avoids_none) fun r r' hr => ?_
    subst hr
    cases r <;> exact .throw

theorem similar_register (email password fullName : String) (d : RegisterDraws) :
    Similar (Unread (tokenKeys x y)) (fun a b => a.1 = b.1) (register env email password fullName d)
      (register env email password fullName { d with token := redraw x y d.token }) := by
  refine .call (.same avoids_none) fun r r' hr => ?_
  subst hr
  cases r with
  | error e => exact .throw
  | ok existing =>
    simp only [Prog.bind]
    split
    · exact .throw
    · refine .call (.same avoids_none) fun r r' hr => ?_
      subst hr
      cases r with
      | error e => exact .throw
      | ok user =>
        refine .call (unread_set (.inl rfl) x y _ _ _) fun r r' hr => ?_
        subst hr
        cases r with
        | error e => exact .throw
        | ok _ => exact .pure rfl

theorem similar_requestPasswordReset (email token : String) :
    Similar (Unread (tokenKeys x y)) (fun _ _ => True) (requestPasswordReset env email token)
      (requestPasswordReset env email (redraw x y token)) := by
  refine .call (.same avoids_none) fun r r' hr => ?_
  subst hr
  cases r with
  | error e => exact .throw
  | ok user =>
    cases user with
    | none => exact .pure trivial
    | some user =>
      refine .call (unread_set (.inr rfl) x y _ _ _) fun r r' hr => ?_
      subst hr
      cases r with
      | error e => exact .throw
      | ok _ => exact .pure trivial

/-- A request that presents neither token goes on in step, whichever of the two is drawn. -/
theorem similar_program (env : Env) (r : Request) (hr : ∀ token ∈ r.presented, token ≠ x ∧ token ≠ y) :
    Similar (Unread (tokenKeys x y)) (AnswersAlike r (r.redraw x y)) (r.program env)
      ((r.redraw x y).program env) := by
  have honly : ∀ {p : AuthM Reply}, p.Only (Cmd.Avoids x y) →
      Similar (Unread (tokenKeys x y)) (AnswersAlike r r) p p := by
    intro p hp
    refine (Similar.of_only hp fun c hc => .same hc).mono fun a b hab => ?_
    rw [hab]
    rfl
  cases r with
  | register email password fullName d =>
    refine .bind (similar_getDb (similar_register email password fullName d)) fun a b hab => ?_
    exact .pure (by simp only [AnswersAlike, Request.respond, hab])
  | requestPasswordReset email token =>
    exact .bind (similar_getDb (similar_requestPasswordReset email token)) fun a b _ => .pure rfl
  | verifyEmail token =>
    obtain ⟨hx, hy⟩ := hr token List.mem_cons_self
    exact honly (.bind (avoids_getDb (avoids_verifyEmail hx hy)) fun _ => trivial)
  | resetPassword token newPassword salt =>
    obtain ⟨hx, hy⟩ := hr token List.mem_cons_self
    exact honly (.bind (avoids_getDb (avoids_resetPassword hx hy newPassword salt)) fun _ => trivial)
  | login email password d =>
    exact honly (.bind (avoids_getDb (avoids_login email password d)) avoids_respondPair)
  | refreshAccessToken token d =>
    exact honly (.bind (avoids_getDb (avoids_refresh token d)) avoids_respondPair)
  | logout token => exact honly (.bind (avoids_getDb (avoids_logout token)) fun _ => trivial)

end Programs

/-! ## Every order of the commands -/

/-- What the route of a request has answered. -/
def answered {ι : Type} (requests : ι → Request) (c : Threads ι) (i : ι) : Option Response :=
  (c.outcome i).map (requests i).respond

/-- Draw another one-time token in the place of `x`. While nobody presents either of the two,
no route gives another answer, and the table of users and the tokens handed out are the same:
what the API shows does not depend on the token, in any order of the commands of any
requests. -/
theorem one_time_tokens_secret {ι : Type} [DecidableEq ι] (env : Env) (w : World) (x y : String)
    (requests : ι → Request)
    (hpresented : ∀ i, ∀ token ∈ (requests i).presented, token ≠ x ∧ token ≠ y)
    (schedule : List (Act ι Nat)) :
    let run := (beside env w requests).run (machine env) schedule
    let run' := (beside env w fun i => (requests i).redraw x y).run (machine env) schedule
    (∀ i, answered requests run i = answered (fun i => (requests i).redraw x y) run' i) ∧
      run.world.users = run'.world.users ∧ run.world.issued = run'.world.issued := by
  intro run run'
  have hstart : InStep (Unread (tokenKeys x y)) (SameBut (tokenKeys x y))
      (fun i => AnswersAlike (requests i) ((requests i).redraw x y)) (beside env w requests)
      (beside env w fun i => (requests i).redraw x y) :=
    ⟨fun _ => rfl, fun i => similar_program env (requests i) (hpresented i), .refl _ w⟩
  have hrun := hstart.run (unread_respects env (tokenKeys x y)) schedule
  refine ⟨fun i => ?_, hrun.world.users.symm, hrun.world.issued.symm⟩
  have houtcome := hrun.outcome i
  change ((run.outcome i).map _) = (run'.outcome i).map _
  generalize run.outcome i = o at houtcome
  generalize run'.outcome i = o' at houtcome
  cases houtcome with
  | none => rfl
  | some h =>
    cases h with
    | ok h => exact congrArg some h
    | error => rfl

/-- A reset is requested for Ada beside a login, and somebody guesses at a link. -/
def resetBesideGuess : Fin 3 → Request
  | 0 => .requestPasswordReset "Ada@example.com" "x1"
  | 1 => .login "ada@example.com" "correct horse" (plainDraws .one)
  | 2 => .resetPassword "x3" "battery staple" "s1"

theorem one_time_tokens_secret_guess :
    let schedule := [.step 0, .step 2, .step 0, .step 1, .step 0, .step 2, .step 1, .step 1, .step 1]
    let run := (beside plainEnv adaAlone resetBesideGuess).run (machine plainEnv) schedule
    let run' := (beside plainEnv adaAlone fun i => (resetBesideGuess i).redraw "x1" "x2").run
      (machine plainEnv) schedule
    (∀ i, answered resetBesideGuess run i =
        answered (fun i => (resetBesideGuess i).redraw "x1" "x2") run' i) ∧
      run.world.users = run'.world.users ∧ run.world.issued = run'.world.issued :=
  one_time_tokens_secret plainEnv adaAlone "x1" "x2" resetBesideGuess (by decide) _

end TaskMgtApp.Auth
