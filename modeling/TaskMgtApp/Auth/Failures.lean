import TaskMgtApp.Auth.Instance
import TaskMgtApp.Auth.Concurrent
import TaskMgtApp.Lib.Failing

/-!
# Requests that fail half-way

Any Redis command, any statement and the commit at the end may fail. The
rollback in `get_db` takes back what the session has written, so the rows stay
as they were; nothing takes back what a request has done in Redis. A failed
request has used up the token it presented if its DEL went through, and a failed
reset has ended the sessions whose keys it had deleted by then.
-/
namespace TaskMgtApp.Auth

open TaskMgtApp.Common
open TaskMgtApp.Lib.Program TaskMgtApp.Lib.Program.Prog
open TaskMgtApp.Lib.Failing
open TaskMgtApp.Lib.ExpiringStore (Store)

/-! ## Failing commands -/

/-- What a command raises when its server fails it. -/
def Cmd.failure : Cmd → Option Exc
  | .get .. | .set .. | .delete .. | .ttl .. | .incr .. | .expire .. | .sadd .. | .srem ..
  | .smembers .. => some .redisError
  | .getById .. | .getByEmail .. | .add .. | .commit => some .dbError
  | .assignEmailVerified .. | .assignPasswordHash .. | .rollback | .utcNow | .decodeToken ..
  | .respond .. => none

/-- One atomic command, or its failure. -/
abbrev execFailing (env : Env) : (c : Cmd) → Faulty Cmd State → Except Exc c.Val × Faulty Cmd State :=
  failing Cmd.failure (exec env)

/-- A request before its first command, with `left` fallible commands before the one that
fails. -/
def World.faulty (w : World) (left : Option Nat) : Faulty Cmd State := ⟨left, [], [], w⟩

/-- Serve one request, one of whose commands may fail. -/
def serveFailing (env : Env) (left : Option Nat) (w : World) (r : Request) :
    Except Exc Reply × Faulty Cmd State :=
  (r.program env).run (execFailing env) (w.faulty left)

/-- A DEL that names the key went through. -/
def Deleted (f : Faulty Cmd State) (key : String) : Prop :=
  ∃ keys, .delete keys ∈ f.done ∧ key ∈ keys

/-- Without a failure the request is served as ever. -/
theorem serveFailing_none (env : Env) (w : World) (r : Request) :
    ((serveFailing env none w r).1, (serveFailing env none w r).2.state.2) = serve env w r := by
  obtain ⟨hresult, hstate⟩ := run_failing_none Cmd.failure (exec env) (r.program env) [] ([], w)
  unfold serveFailing World.faulty serve
  rw [hresult, hstate]

/-! ## Reachable worlds -/

/-- A request draws a `jti` that no token handed out has. -/
def DrawsFresh (env : Env) (w : World) (r : Request) : Prop :=
  ∀ d, r.draws = some d → ∀ T ∈ w.issued, ∀ p, env.decode T = some p → p.jti ≠ d.refreshJti.str

/-- The worlds that requests one after the other lead to, with failures or without. -/
inductive Reachable (env : Env) : World → Prop
  | start (now : Nat) (users : List User) :
      Reachable env { now := now, redis := Store.empty, users := users, issued := [] }
  | wait {w : World} (h : Reachable env w) (seconds : Nat) :
      Reachable env { w with now := w.now + seconds }
  | request {w : World} (h : Reachable env w) (r : Request) (left : Option Nat)
      (hfresh : DrawsFresh env w r) : Reachable env (serveFailing env left w r).2.state.2

/-! ## What a request without a response leaves alone -/

/-- The command hands no token to the client. -/
def Cmd.silent : Cmd → Prop
  | .respond _ => False
  | _ => True

/-- A command that loads no row by its key, assigns no attribute, ends no transaction and
hands nothing out. -/
def Cmd.plain : Cmd → Prop
  | .getById _ | .assignEmailVerified _ | .assignPasswordHash .. | .commit | .rollback
  | .respond _ => False
  | _ => True

theorem Cmd.plain.silent {c : Cmd} (h : c.plain) : c.silent := by
  cases c with
  | respond => exact h
  | _ => trivial

/-- A command that writes no committed row, no string key and hands nothing out. -/
def Cmd.inert : Cmd → Prop
  | .set .. | .delete .. | .incr .. | .expire .. | .commit | .respond .. => False
  | _ => True

/-- The commands of a body that deletes only keys in `K` and sets only keys in `S`. -/
inductive BodyCmd (K : Finset String → Prop) (S : String → Prop) : Cmd → Prop
  | inert {c : Cmd} (h : c.inert) : BodyCmd K S c
  | delete {keys : Finset String} (h : K keys) : BodyCmd K S (.delete keys)
  | set {key value : String} {ex : Nat} (h : S key) : BodyCmd K S (.set key value ex)

theorem BodyCmd.silent {K : Finset String → Prop} {S : String → Prop} {c : Cmd}
    (h : BodyCmd K S c) : c.silent := by
  cases h with
  | inert hi =>
    cases c with
    | respond => exact hi
    | _ => trivial
  | delete | set => trivial

/-- What such a body has done to the world `w` by the time it fails: a key it does not set
is gone if a DEL that names it went through, and as it was if none did. -/
structure Erased (w : World) (K : Finset String → Prop) (S : String → Prop)
    (f : Faulty Cmd State) : Prop where
  now : f.state.2.now = w.now
  users : f.state.2.users = w.users
  issued : f.state.2.issued = w.issued
  named : ∀ keys, .delete keys ∈ f.done → K keys
  kept : ∀ key, ¬ S key → ¬ Deleted f key →
    f.state.2.redis.look w.now key = w.redis.look w.now key
  lost : ∀ key, ¬ S key → Deleted f key → f.state.2.redis.look w.now key = none

section Erased
variable {env : Env} {w : World} {K : Finset String → Prop} {S : String → Prop}

theorem Erased.start (w : World) (left : Option Nat) : Erased w K S (w.faulty left) where
  now := rfl
  users := rfl
  issued := rfl
  named _ h := by cases h
  kept _ _ _ := rfl
  lost _ _ h := by
    obtain ⟨keys, h, -⟩ := h
    cases h

theorem exec_inert {c : Cmd} (hc : c.inert) (s : State) :
    (exec env c s).2.2.users = s.2.users ∧ (exec env c s).2.2.issued = s.2.issued ∧
      ∀ t key, (exec env c s).2.2.redis.look t key = s.2.redis.look t key := by
  obtain ⟨l, w⟩ := s
  cases c with
  | set | delete | incr | expire | commit | respond => exact hc.elim
  | decodeToken T =>
    rw [exec_decodeToken]
    exact ⟨rfl, rfl, fun _ _ => rfl⟩
  | add id email passwordHash fullName =>
    simp only [exec]
    split <;> exact ⟨rfl, rfl, fun _ _ => rfl⟩
  | _ => exact ⟨rfl, rfl, fun _ _ => rfl⟩

/-- A DEL went through before, or is the command that goes through now. -/
theorem deleted_pass {f : Faulty Cmd State} {c : Cmd} {left : Option Nat} {key : String} :
    Deleted (f.pass (exec env) c left) key ↔
      (∃ keys, c = .delete keys ∧ key ∈ keys) ∨ Deleted f key := by
  simp only [Deleted, Faulty.pass, List.mem_cons]
  constructor
  · rintro ⟨keys, rfl | h, hk⟩
    · exact .inl ⟨keys, rfl, hk⟩
    · exact .inr ⟨keys, h, hk⟩
  · rintro (⟨keys, rfl, hk⟩ | ⟨keys, h, hk⟩)
    · exact ⟨keys, .inl rfl, hk⟩
    · exact ⟨keys, .inr h, hk⟩

theorem Erased.keeps : Keeps (exec env) (BodyCmd K S) (Erased w K S) where
  fail f h := ⟨h.now, h.users, h.issued, h.named, h.kept, h.lost⟩
  pass f c left hc h := by
    have hnow : (f.pass (exec env) c left).state.2.now = w.now := (exec_now env _ c).trans h.now
    cases hc with
    | inert hi =>
      obtain ⟨husers, hissued, hlook⟩ := exec_inert hi f.state
      have hdel : ∀ keys, c ≠ .delete keys := by
        rintro keys rfl
        exact hi
      refine ⟨hnow, husers.trans h.users, hissued.trans h.issued, ?_, ?_, ?_⟩
      · intro keys hk
        exact h.named keys ((List.mem_cons.mp hk).resolve_left fun he => hdel keys he.symm)
      · intro key hS hnot
        rw [deleted_pass, not_or] at hnot
        exact (hlook _ _).trans (h.kept key hS hnot.2)
      · intro key hS hdeleted
        rcases deleted_pass.mp hdeleted with ⟨keys, he, -⟩ | hdeleted
        · exact absurd he (hdel keys)
        · exact (hlook _ _).trans (h.lost key hS hdeleted)
    | delete hK =>
      rename_i keys
      have hlook : ∀ key, (f.pass (exec env) (.delete keys) left).state.2.redis.look w.now key =
          if key ∈ keys then none else f.state.2.redis.look w.now key :=
        fun key => Store.look_delete w.now f.state.2.now key f.state.2.redis keys
      refine ⟨hnow, h.users, h.issued, ?_, ?_, ?_⟩
      · intro keys' hk
        rcases List.mem_cons.mp hk with he | hk
        · obtain rfl := Cmd.delete.inj he
          exact hK
        · exact h.named keys' hk
      · intro key hS hnot
        rw [deleted_pass, not_or] at hnot
        have hkey : key ∉ keys := fun hk => hnot.1 ⟨keys, rfl, hk⟩
        rw [hlook, if_neg hkey]
        exact h.kept key hS hnot.2
      · intro key hS hdeleted
        rw [hlook]
        split
        · rfl
        · rename_i hkey
          rcases deleted_pass.mp hdeleted with ⟨keys', he, hk⟩ | hdeleted
          · obtain rfl := Cmd.delete.inj he
            exact absurd hk hkey
          · exact h.lost key hS hdeleted
    | set hset =>
      rename_i k v ex
      have hlook : ∀ key, ¬ S key → (f.pass (exec env) (.set k v ex) left).state.2.redis.look
          w.now key = f.state.2.redis.look w.now key := by
        intro key hS
        have hne : key ≠ k := by
          rintro rfl
          exact hS hset
        exact (Store.look_setEx ..).trans (if_neg hne)
      refine ⟨hnow, h.users, h.issued, ?_, ?_, ?_⟩
      · intro keys hk
        exact h.named keys ((List.mem_cons.mp hk).resolve_left (by simp))
      · intro key hS hnot
        rw [deleted_pass, not_or] at hnot
        exact (hlook key hS).trans (h.kept key hS hnot.2)
      · intro key hS hdeleted
        rcases deleted_pass.mp hdeleted with ⟨keys, he, -⟩ | hdeleted
        · cases he
        · exact (hlook key hS).trans (h.lost key hS hdeleted)

end Erased

/-- A request that ends with an exception has not committed: what its body keeps, it keeps. -/
theorem getDb_error {α : Type} {env : Env} {Q : Cmd → Prop} {I : Faulty Cmd State → Prop}
    (hkeeps : Keeps (exec env) Q I) (hroll : Q .rollback) {body : AuthM α} {f f' : Faulty Cmd State}
    {exc : Exc} (hrun : (getDb body).run (execFailing env) f = (.error exc, f'))
    (hbody : I (body.run (execFailing env) f).2) : I f' := by
  have hrollback : ∀ g : Faulty Cmd State, I g → ∀ e : Exc,
      (do let _ ← rollback; throw e : AuthM α).run (execFailing env) g = (.error exc, f') → I f' := by
    intro g hg e h
    have hpass : execFailing env .rollback g =
        ((exec env .rollback g.state).1, g.pass (exec env) .rollback g.left) :=
      failing_infallible rfl
    simp only [rollback, perform_bind, run_call, hpass] at h
    rw [← (Prod.mk.inj h).2]
    exact hkeeps.pass g _ _ hroll hg
  simp only [getDb, run_catch, run_bind] at hrun
  generalize body.run (execFailing env) f = b at hrun hbody
  obtain ⟨o, g⟩ := b
  cases o with
  | ok a =>
    simp only [run_perform] at hrun
    rcases failing_cases Cmd.failure (exec env) .commit g with ⟨left, heq⟩ | ⟨e, -, heq⟩
    · rw [execFailing, heq] at hrun
      simp [exec] at hrun
    · rw [execFailing, heq] at hrun
      exact hrollback _ (hkeeps.fail g hbody) e hrun
  | error e => exact hrollback g hbody e hrun

/-! ## Tokens handed out -/

section Issued
variable {env : Env}

/-- A token pair whose refresh token bears the drawn `jti`. -/
structure PairOf (env : Env) (d : IssueDraws) (pair : String × String) : Prop where
  access : ∃ p, env.decode pair.1 = some p ∧ p.type = .access
  refresh : ∃ p, env.decode pair.2 = some p ∧ p.jti = d.refreshJti.str

theorem exec_silent {c : Cmd} (hc : c.silent) (s : State) :
    (exec env c s).2.2.issued = s.2.issued := by
  obtain ⟨l, w⟩ := s
  cases c with
  | respond => exact hc.elim
  | _ =>
    simp only [exec]
    try split
    all_goals rfl

theorem silent_keeps (tokens : List String) :
    Keeps (exec env) Cmd.silent fun f => f.state.2.issued = tokens where
  pass f _ _ hc h := (exec_silent hc f.state).trans h
  fail _ h := h

theorem getDb_silent {α : Type} {body : AuthM α} (h : body.Only Cmd.silent) :
    (getDb body).Only Cmd.silent := by
  refine Only.catch (Only.bind h fun a => ?_) fun e => ?_
  · exact ⟨trivial, fun r => by cases r <;> trivial⟩
  · exact ⟨trivial, fun r => by cases r <;> trivial⟩

theorem getDb_returns {α : Type} {R : α → Prop} {body : AuthM α} (h : Returns R body) :
    Returns R (getDb body) := by
  refine Returns.catch (h.bind fun a ha => ?_) fun e => ?_
  · exact .after _ fun _ => ha
  · exact .after _ fun _ => trivial

theorem uuidOf_plain (s : String) : (uuidOf s).Only Cmd.plain := by
  unfold uuidOf
  split <;> trivial

theorem issueTokenPair_plain (u : UUID) (d : IssueDraws) :
    (issueTokenPair env u d).Only Cmd.plain := by
  refine Only.bind (Only.bind (by simp [Cmd.plain]) fun _ => trivial) fun _ => ?_
  refine Only.bind (Only.bind (Only.bind (by simp [Cmd.plain]) fun _ => trivial) fun _ => trivial)
    fun _ => ?_
  exact Only.bind (by simp [Cmd.plain]) fun _ => Only.bind (by simp [Cmd.plain]) fun _ => trivial

theorem issueTokenPair_returns (u : UUID) (d : IssueDraws) :
    Returns (PairOf env d) (issueTokenPair env u d) := by
  refine Returns.bind (P := fun a => ∃ p, env.decode a = some p ∧ p.type = .access) ?_ ?_
  · exact .after _ fun now => ⟨_, env.decode_encode _, rfl⟩
  · intro a ha
    refine Returns.bind (P := fun t => t.2 = d.refreshJti.str ∧
      ∃ p, env.decode t.1 = some p ∧ p.jti = d.refreshJti.str) ?_ ?_
    · refine Returns.bind (P := fun t => ∃ p, env.decode t = some p ∧ p.jti = d.refreshJti.str) ?_ ?_
      · exact .after _ fun now => ⟨_, env.decode_encode _, rfl⟩
      · exact fun t ht => ⟨rfl, ht⟩
    · rintro ⟨t, jti⟩ ⟨rfl, ht⟩
      exact .after _ fun _ => .after _ fun _ => ⟨ha, ht⟩

theorem registerFailedAttempt_plain (e : String) : (registerFailedAttempt env e).Only Cmd.plain := by
  refine Only.bind (by simp [Cmd.plain]) fun count => ?_
  refine Only.bind (by simp [Cmd.plain]) fun _ => ?_
  split
  · exact Only.bind (by simp [Cmd.plain]) fun _ => Only.bind (by simp [Cmd.plain]) fun _ => trivial
  · trivial

theorem login_plain (email password : String) (d : IssueDraws) :
    (login env email password d).Only Cmd.plain := by
  refine Only.bind (by simp [Cmd.plain]) fun ttl => ?_
  split
  · trivial
  · refine Only.bind (by simp [Cmd.plain]) fun user => ?_
    split
    · exact Only.bind (registerFailedAttempt_plain _) fun _ => trivial
    · split
      · trivial
      · exact Only.bind (by simp [Cmd.plain]) fun _ => issueTokenPair_plain _ _

theorem login_returns (email password : String) (d : IssueDraws) :
    Returns (PairOf env d) (login env email password d) := by
  refine .after _ fun ttl => ?_
  split
  · trivial
  · refine .after _ fun user => ?_
    split
    · exact .after _ fun _ => trivial
    · split
      · trivial
      · exact .after _ fun _ => issueTokenPair_returns _ _

theorem decodeRefreshToken_plain (T : String) : (decodeRefreshToken T).Only Cmd.plain := by
  refine Only.bind (Only.catch (by simp [Cmd.plain]) fun e => ?_) fun p => ?_
  · cases e <;> trivial
  · split <;> trivial

theorem refreshAccessToken_plain (T : String) (d : IssueDraws) :
    (refreshAccessToken env T d).Only Cmd.plain := by
  refine Only.bind (decodeRefreshToken_plain T) fun p => ?_
  refine Only.bind (by simp [Cmd.plain]) fun stored => ?_
  split
  · trivial
  · refine Only.bind (by simp [Cmd.plain]) fun _ => ?_
    refine Only.bind (uuidOf_plain _) fun u => ?_
    exact Only.bind (by simp [Cmd.plain]) fun _ => issueTokenPair_plain u d

theorem refreshAccessToken_returns (T : String) (d : IssueDraws) :
    Returns (PairOf env d) (refreshAccessToken env T d) := by
  refine .after _ fun p => .after _ fun stored => ?_
  split
  · trivial
  · exact .after _ fun _ => .after _ fun u => .after _ fun _ => issueTokenPair_returns u d

theorem logout_plain (T : String) : (logout T).Only Cmd.plain := by
  refine Only.bind (Only.catch (Only.bind (decodeRefreshToken_plain T) fun p => trivial)
    fun e => by cases e <;> trivial) fun payload => ?_
  cases payload with
  | none => trivial
  | some p =>
    refine Only.bind (by simp [Cmd.plain]) fun _ => Only.bind (uuidOf_plain _) fun u => ?_
    exact Only.bind (by simp [Cmd.plain]) fun _ => trivial

theorem register_plain (email password fullName : String) (d : RegisterDraws) :
    (register env email password fullName d).Only Cmd.plain := by
  refine Only.bind (by simp [Cmd.plain]) fun existing => ?_
  split
  · trivial
  · exact Only.bind (by simp [Cmd.plain]) fun user => Only.bind (by simp [Cmd.plain]) fun _ => trivial

theorem requestPasswordReset_plain (email token : String) :
    (requestPasswordReset env email token).Only Cmd.plain := by
  refine Only.bind (by simp [Cmd.plain]) fun user => ?_
  cases user with
  | none => trivial
  | some user => exact Only.bind (by simp [Cmd.plain]) fun _ => trivial

/-! ## The three credential operations -/

theorem verifyEmail_only (token : String) :
    (verifyEmail token).Only (BodyCmd (· = {emailVerifyKey token}) fun _ => False) := by
  refine Only.bind (only_perform.mpr (.inert trivial)) fun userId => ?_
  cases userId with
  | none => trivial
  | some userId =>
    refine Only.bind (by unfold uuidOf; split <;> trivial) fun id => ?_
    refine Only.bind (only_perform.mpr (.inert trivial)) fun user => ?_
    cases user with
    | none => trivial
    | some user =>
      refine Only.bind (only_perform.mpr (.inert trivial)) fun _ => ?_
      exact Only.bind (only_perform.mpr (.delete rfl)) fun _ => trivial

/-- The keys a reset deletes: that of its token, those of refresh tokens, an index. -/
inductive ResetKeys (token : String) : Finset String → Prop
  | token : ResetKeys token {pwdResetKey token}
  | refresh (jtis : Finset String) : ResetKeys token (jtis.image refreshTokenKey)
  | index (u : UUID) : ResetKeys token {userTokensKey u}

theorem resetPassword_only (token newPassword salt : String) :
    (resetPassword env token newPassword salt).Only (BodyCmd (ResetKeys token) fun _ => False) := by
  refine Only.bind (only_perform.mpr (.inert trivial)) fun userId => ?_
  cases userId with
  | none => trivial
  | some userId =>
    refine Only.bind (by unfold uuidOf; split <;> trivial) fun id => ?_
    refine Only.bind (only_perform.mpr (.inert trivial)) fun user => ?_
    cases user with
    | none => trivial
    | some user =>
      refine Only.bind (only_perform.mpr (.inert trivial)) fun _ => ?_
      refine Only.bind (only_perform.mpr (.delete .token)) fun _ => ?_
      refine Only.bind (only_perform.mpr (.inert trivial)) fun jtis => ?_
      have hindex : (redisDelete {userTokensKey user.id} >>= fun _ => (pure () : AuthM Unit)).Only
          (BodyCmd (ResetKeys token) fun _ => False) :=
        Only.bind (only_perform.mpr (.delete (.index _))) fun _ => trivial
      dsimp only
      split
      · exact hindex
      · exact Only.bind (only_perform.mpr (.delete (.refresh jtis))) fun _ => hindex

theorem issueTokenPair_only (u : UUID) (d : IssueDraws) (K : Finset String → Prop) :
    (issueTokenPair env u d).Only (BodyCmd K (· = refreshTokenKey d.refreshJti.str)) := by
  refine ⟨.inert trivial, fun now => ?_⟩
  cases now with
  | error e => trivial
  | ok now =>
    refine ⟨.inert trivial, fun later => ?_⟩
    cases later with
    | error e => trivial
    | ok later =>
      refine ⟨.set rfl, fun r => ?_⟩
      cases r with
      | error e => trivial
      | ok r => exact ⟨.inert trivial, fun r => by cases r <;> trivial⟩

theorem run_decodeRefreshToken_failing (T : String) (f : Faulty Cmd State) :
    (decodeRefreshToken T).run (execFailing env) f =
      (match f.state.2.refreshClaims env T with
        | some p => .ok p
        | none => .error (.invalidTokenError refreshTokenMessage),
        f.pass (exec env) (.decodeToken T) f.left) := by
  have hpass : execFailing env (.decodeToken T) f =
      ((exec env (.decodeToken T) f.state).1, f.pass (exec env) (.decodeToken T) f.left) :=
    failing_infallible rfl
  simp only [decodeRefreshToken, run_bind, run_catch, run_perform, hpass, World.refreshClaims]
  obtain ⟨left, done, l, w⟩ := f
  cases hd : w.decodeToken env T with
  | none => simp [exec, hd]
  | some p => by_cases hp : p.type = .refresh <;> simp [exec, hd, Option.filter, hp]

/-- What a refresh has done by its end to the world `w`: it deletes only the key of its
token and sets only the key of the token it issues. -/
theorem refreshAccessToken_erased {w : World} {T : String} {p : Claims} (d : IssueDraws)
    (left : Option Nat) (hp : w.refreshClaims env T = some p) :
    Erased w (· = {refreshTokenKey p.jti}) (· = refreshTokenKey d.refreshJti.str)
      ((refreshAccessToken env T d).run (execFailing env) (w.faulty left)).2 := by
  have hclaims : (w.faulty left).state.2.refreshClaims env T = some p := hp
  unfold refreshAccessToken
  rw [run_bind, run_decodeRefreshToken_failing, hclaims]
  have hstart : Erased w (· = {refreshTokenKey p.jti}) (· = refreshTokenKey d.refreshJti.str)
      ((w.faulty left).pass (exec env) (.decodeToken T) left) :=
    Erased.keeps.pass _ _ _ (.inert trivial) (.start w left)
  refine Erased.keeps.run ?_ hstart
  refine Only.bind (only_perform.mpr (.inert trivial)) fun stored => ?_
  split
  · trivial
  · refine Only.bind (only_perform.mpr (.delete rfl)) fun _ => ?_
    refine Only.bind (by unfold uuidOf; split <;> trivial) fun u => ?_
    exact Only.bind (only_perform.mpr (.inert trivial)) fun _ => issueTokenPair_only u d _

/-- A refresh whose token does not decode does nothing. -/
theorem refreshAccessToken_undecoded {w : World} {T : String} (d : IssueDraws) (left : Option Nat)
    (hp : w.refreshClaims env T = none) :
    Erased w (fun _ => False) (fun _ => False)
      ((refreshAccessToken env T d).run (execFailing env) (w.faulty left)).2 := by
  have hclaims : (w.faulty left).state.2.refreshClaims env T = none := hp
  unfold refreshAccessToken
  rw [run_bind, run_decodeRefreshToken_failing, hclaims]
  exact Erased.keeps.pass _ _ _ (.inert trivial) (.start w left)

theorem respondPair_run (pair : String × String) (f : Faulty Cmd State) :
    (respondPair pair).run (execFailing env) f =
      (.ok (.tokenPair pair.1 pair.2), f.pass (exec env) (.respond [pair.1, pair.2]) f.left) := by
  have hpass : execFailing env (.respond [pair.1, pair.2]) f =
      ((exec env (.respond [pair.1, pair.2]) f.state).1,
        f.pass (exec env) (.respond [pair.1, pair.2]) f.left) := failing_infallible rfl
  simp [respondPair, run_call, hpass, exec]

/-- The tokens handed out after a request: as before, or with its new pair. -/
theorem issued_serveFailing (left : Option Nat) (w : World) (r : Request) :
    (serveFailing env left w r).2.state.2.issued = w.issued ∨ ∃ d pair, r.draws = some d ∧
      PairOf env d pair ∧
      (serveFailing env left w r).2.state.2.issued = pair.1 :: pair.2 :: w.issued := by
  have hsilent : ∀ {α : Type} (p : AuthM α), p.Only Cmd.silent →
      (p.run (execFailing env) (w.faulty left)).2.state.2.issued = w.issued :=
    fun p hp => (silent_keeps w.issued).run hp rfl
  have hreturn : ∀ {α : Type} {body : AuthM α} {f : α → Reply}, body.Only Cmd.silent →
      ((getDb body >>= fun x => return f x).run (execFailing env) (w.faulty left)).2.state.2.issued =
        w.issued :=
    fun hbody => hsilent _ (Only.bind (getDb_silent hbody) fun _ => trivial)
  have hpair : ∀ (d : IssueDraws) (body : AuthM (String × String)), body.Only Cmd.plain →
      Returns (PairOf env d) body → r.draws = some d → r.program env = getDb body >>= respondPair →
      (serveFailing env left w r).2.state.2.issued = w.issued ∨ ∃ d pair, r.draws = some d ∧
        PairOf env d pair ∧
        (serveFailing env left w r).2.state.2.issued = pair.1 :: pair.2 :: w.issued := by
    intro d body hbody hreturns hd hprogram
    have hissued := hsilent _ (getDb_silent (hbody.mono fun _ => Cmd.plain.silent))
    unfold serveFailing
    rw [hprogram, run_bind]
    cases hrun : (getDb body).run (execFailing env) (w.faulty left) with
    | mk o f =>
      rw [hrun] at hissued
      cases o with
      | error e => exact .inl hissued
      | ok pair =>
        right
        refine ⟨d, pair, hd, (getDb_returns hreturns).run hrun, ?_⟩
        dsimp only
        rw [respondPair_run]
        exact congrArg (fun tokens => pair.1 :: pair.2 :: tokens) hissued
  cases r with
  | register email password fullName d =>
    exact .inl (hreturn ((register_plain ..).mono fun _ => Cmd.plain.silent))
  | verifyEmail token =>
    exact .inl (hreturn ((verifyEmail_only token).mono fun _ => BodyCmd.silent))
  | login email password d =>
    exact hpair d _ (login_plain email password d) (login_returns email password d) rfl rfl
  | requestPasswordReset email token =>
    exact .inl (hreturn ((requestPasswordReset_plain ..).mono fun _ => Cmd.plain.silent))
  | resetPassword token newPassword salt =>
    exact .inl (hreturn ((resetPassword_only token newPassword salt).mono fun _ => BodyCmd.silent))
  | refreshAccessToken T d =>
    exact hpair d _ (refreshAccessToken_plain T d) (refreshAccessToken_returns T d) rfl rfl
  | logout T => exact .inl (hreturn ((logout_plain T).mono fun _ => Cmd.plain.silent))

end Issued

/-! ## What a failed request leaves -/

/-- A token that a credential operation takes. -/
inductive Presented where
  | emailVerify (token : String)
  | passwordReset (token : String)
  | refresh (token : String)

/-- The token a request presents, if it is one of the three credential operations. -/
def Request.presents : Request → Option Presented
  | .verifyEmail token => some (.emailVerify token)
  | .resetPassword token _ _ => some (.passwordReset token)
  | .refreshAccessToken token _ => some (.refresh token)
  | _ => none

/-- The Redis key of a token. -/
def Presented.key (env : Env) : Presented → Option String
  | .emailVerify token => some (emailVerifyKey token)
  | .passwordReset token => some (pwdResetKey token)
  | .refresh token => (env.decode token).map fun p => refreshTokenKey p.jti

/-- The request would be served now. -/
def Accepts (env : Env) (w : World) (r : Request) : Prop := ∃ reply, (serve env w r).1 = .ok reply

section Left
variable {env : Env} {w : World}

/-- A one-time token is accepted if its key names an active account. -/
def World.Redeems (w : World) (key : String) : Prop :=
  ∃ id user, w.text key = some (UUID.str id) ∧ w.userById id = some user

theorem accepts_verifyEmail {token : String} :
    Accepts env w (.verifyEmail token) ↔ w.Redeems (emailVerifyKey token) := by
  unfold Accepts
  rw [serve_verifyEmail]
  constructor
  · rintro ⟨reply, h⟩
    cases ht : w.text (emailVerifyKey token) with
    | none => simp [ht] at h
    | some s =>
      cases hp : UUID.parse s with
      | none => simp [ht, hp] at h
      | some id =>
        cases hu : w.userById id with
        | none => simp [ht, hp, hu] at h
        | some user => exact ⟨id, user, UUID.parse_eq_some.mp hp ▸ ht, hu⟩
  · rintro ⟨id, user, ht, hu⟩
    simp [ht, hu]

theorem accepts_resetPassword {token newPassword salt : String} :
    Accepts env w (.resetPassword token newPassword salt) ↔ w.Redeems (pwdResetKey token) := by
  unfold Accepts
  rw [serve_resetPassword]
  constructor
  · rintro ⟨reply, h⟩
    cases ht : w.text (pwdResetKey token) with
    | none => simp [ht] at h
    | some s =>
      cases hp : UUID.parse s with
      | none => simp [ht, hp] at h
      | some id =>
        cases hu : w.userById id with
        | none => simp [ht, hp, hu] at h
        | some user => exact ⟨id, user, UUID.parse_eq_some.mp hp ▸ ht, hu⟩
  · rintro ⟨id, user, ht, hu⟩
    simp [ht, hu]

theorem accepts_refreshAccessToken {T : String} {d : IssueDraws} :
    Accepts env w (.refreshAccessToken T d) ↔
      ∃ p u, w.acceptedClaims env T = some p ∧ p.sub = UUID.str u := by
  unfold Accepts
  rw [serve_refreshAccessToken]
  constructor
  · rintro ⟨reply, h⟩
    cases hp : w.acceptedClaims env T with
    | none => simp [hp] at h
    | some p =>
      cases hu : UUID.parse p.sub with
      | none => simp [hp, hu] at h
      | some u => exact ⟨p, u, rfl, UUID.parse_eq_some.mp hu⟩
  · rintro ⟨p, u, hp, hu⟩
    simp [hp, hu]

variable {K : Finset String → Prop} {S : String → Prop} {f : Faulty Cmd State}

theorem Erased.text (h : Erased w K S f) {key : String} (hS : ¬ S key) {s : String} :
    f.state.2.text key = some s ↔ w.text key = some s ∧ ¬ Deleted f key := by
  unfold World.text Store.get
  rw [h.now]
  by_cases hd : Deleted f key
  · rw [h.lost key hS hd]
    simp [hd]
  · rw [h.kept key hS hd]
    simp [hd]

theorem Erased.redeems (h : Erased w K S f) {key : String} (hS : ¬ S key) :
    f.state.2.Redeems key ↔ w.Redeems key ∧ ¬ Deleted f key := by
  have huser : ∀ id, f.state.2.userById id = w.userById id := by
    intro id
    unfold World.userById
    rw [h.users]
  simp only [World.Redeems, h.text hS, huser]
  constructor
  · rintro ⟨id, user, ⟨ht, hd⟩, hu⟩
    exact ⟨⟨id, user, ht, hu⟩, hd⟩
  · rintro ⟨⟨id, user, ht, hu⟩, hd⟩
    exact ⟨id, user, ⟨ht, hd⟩, hu⟩

/-- A refresh token is accepted after a failed request if it was before and its key has
not been deleted. -/
theorem Erased.accepts_refresh (h : Erased w K S f) {T : String} (d : IssueDraws)
    (hS : ∀ p, w.refreshClaims env T = some p → ¬ S (refreshTokenKey p.jti)) :
    Accepts env f.state.2 (.refreshAccessToken T d) ↔ Accepts env w (.refreshAccessToken T d) ∧
      ∀ key, Presented.key env (.refresh T) = some key → ¬ Deleted f key := by
  have hclaims : f.state.2.refreshClaims env T = w.refreshClaims env T := by
    unfold World.refreshClaims World.decodeToken
    rw [h.now, h.issued]
  have hkey : ∀ p, w.refreshClaims env T = some p →
      Presented.key env (.refresh T) = some (refreshTokenKey p.jti) := by
    intro p hp
    simp [Presented.key, (issued_of_refreshClaims hp).2.1]
  simp only [accepts_refreshAccessToken, acceptedClaims_eq_some_iff, hclaims]
  constructor
  · rintro ⟨p, u, ⟨hp, ht⟩, hu⟩
    obtain ⟨ht, hd⟩ := (h.text (hS p hp)).mp ht
    refine ⟨⟨p, u, ⟨hp, ht⟩, hu⟩, fun key hk => ?_⟩
    obtain rfl := Option.some.inj (hk.symm.trans (hkey p hp))
    exact hd
  · rintro ⟨⟨p, u, ⟨hp, ht⟩, hu⟩, hd⟩
    exact ⟨p, u, ⟨hp, (h.text (hS p hp)).mpr ⟨ht, hd _ (hkey p hp)⟩⟩, hu⟩

/-- Two refresh tokens handed out never bear one `jti`. -/
theorem Reachable.distinct (h : Reachable env w) {T T' : String} (hT : T ∈ w.issued)
    (hT' : T' ∈ w.issued) {p p' : Claims} (hp : env.decode T = some p) (hp' : env.decode T' = some p')
    (htype : p.type = .refresh) (htype' : p'.type = .refresh) (hj : p.jti = p'.jti) : T = T' := by
  induction h generalizing T T' p p' with
  | start now users => cases hT
  | wait h seconds ih => exact ih hT hT' hp hp' htype htype' hj
  | @request w h r left hfresh ih =>
    rcases issued_serveFailing left w r with hsame | ⟨d, pair, hd, hpair, hnew⟩
    · rw [hsame] at hT hT'
      exact ih hT hT' hp hp' htype htype' hj
    · have hone : ∀ {T : String} {p : Claims}, T ∈ pair.1 :: pair.2 :: w.issued →
          env.decode T = some p → p.type = .refresh →
          (T = pair.2 ∧ p.jti = d.refreshJti.str) ∨ (T ∈ w.issued ∧ p.jti ≠ d.refreshJti.str) := by
        intro T p hT hp htype
        rcases List.mem_cons.mp hT with rfl | hT
        · obtain ⟨q, hq, haccess⟩ := hpair.access
          obtain rfl := Option.some.inj (hp.symm.trans hq)
          rw [htype] at haccess
          cases haccess
        · rcases List.mem_cons.mp hT with rfl | hT
          · obtain ⟨q, hq, hjti⟩ := hpair.refresh
            obtain rfl := Option.some.inj (hp.symm.trans hq)
            exact .inl ⟨rfl, hjti⟩
          · exact .inr ⟨hT, hfresh d hd T hT p hp⟩
      rw [hnew] at hT hT'
      rcases hone hT hp htype with ⟨rfl, h1⟩ | ⟨hT, h1⟩
      · rcases hone hT' hp' htype' with ⟨rfl, -⟩ | ⟨-, h2⟩
        · rfl
        · exact absurd (hj.symm.trans h1) h2
      · rcases hone hT' hp' htype' with ⟨rfl, h2⟩ | ⟨hT', -⟩
        · exact absurd (hj.trans h2) h1
        · exact ih hT hT' hp hp' htype htype' hj

/-- What follows the body of a request cannot fail. -/
theorem body_error {α β : Type} {p : AuthM α} {g : α → AuthM β} {f : Faulty Cmd State} {exc : Exc}
    (hg : ∀ a f, ∃ b, ((g a).run (execFailing env) f).1 = .ok b)
    (h : ((p >>= g).run (execFailing env) f).1 = .error exc) :
    p.run (execFailing env) f = (.error exc, ((p >>= g).run (execFailing env) f).2) := by
  rw [run_bind] at h ⊢
  cases hp : p.run (execFailing env) f with
  | mk o f' =>
    rw [hp] at h
    cases o with
    | ok a =>
      obtain ⟨b, hb⟩ := hg a f'
      dsimp only at h
      rw [hb] at h
      cases h
    | error e =>
      obtain rfl := Except.error.inj h
      rfl

/-- What a failed `verify_email` has done. -/
theorem verifyEmail_failed {token : String} {left : Option Nat} {exc : Exc}
    (h : (serveFailing env left w (.verifyEmail token)).1 = .error exc) :
    Erased w (· = {emailVerifyKey token}) (fun _ => False)
      (serveFailing env left w (.verifyEmail token)).2 :=
  getDb_error Erased.keeps (.inert trivial) (body_error (fun _ _ => ⟨_, rfl⟩) h)
    (Erased.keeps.run (verifyEmail_only token) (.start w left))

theorem resetPassword_failed {token newPassword salt : String} {left : Option Nat} {exc : Exc}
    (h : (serveFailing env left w (.resetPassword token newPassword salt)).1 = .error exc) :
    Erased w (ResetKeys token) (fun _ => False)
      (serveFailing env left w (.resetPassword token newPassword salt)).2 :=
  getDb_error Erased.keeps (.inert trivial) (body_error (fun _ _ => ⟨_, rfl⟩) h)
    (Erased.keeps.run (resetPassword_only token newPassword salt) (.start w left))

theorem refreshAccessToken_failed {T : String} {d : IssueDraws} {left : Option Nat} {exc : Exc}
    (h : (serveFailing env left w (.refreshAccessToken T d)).1 = .error exc) :
    (w.refreshClaims env T = none ∧ Erased w (fun _ => False) (fun _ => False)
      (serveFailing env left w (.refreshAccessToken T d)).2) ∨
    ∃ p, w.refreshClaims env T = some p ∧
      Erased w (· = {refreshTokenKey p.jti}) (· = refreshTokenKey d.refreshJti.str)
        (serveFailing env left w (.refreshAccessToken T d)).2 := by
  have herror := body_error (fun pair f => ⟨_, congrArg Prod.fst (respondPair_run pair f)⟩) h
  cases hp : w.refreshClaims env T with
  | none =>
    exact .inl ⟨rfl, getDb_error Erased.keeps (.inert trivial) herror
      (refreshAccessToken_undecoded d left hp)⟩
  | some p =>
    exact .inr ⟨p, rfl, getDb_error Erased.keeps (.inert trivial) herror
      (refreshAccessToken_erased d left hp)⟩

/-- A refresh draws a `jti` of its own. -/
theorem DrawsFresh.new {T : String} {d : IssueDraws}
    (hfresh : DrawsFresh env w (.refreshAccessToken T d)) (T' : String) (q : Claims)
    (hq : w.refreshClaims env T' = some q) :
    ¬ refreshTokenKey q.jti = refreshTokenKey d.refreshJti.str := by
  intro hj
  obtain ⟨hissued, hdec, -⟩ := issued_of_refreshClaims hq
  exact hfresh d rfl T' hissued q hdec (by simpa using hj)

/-- What a failed request with the token `x` leaves: the rows as they were, every request
with `x` unless its key has been deleted, and every other refresh token unless a reset has
deleted its key. -/
structure Leaves (env : Env) (w : World) (x : Presented) (f : Faulty Cmd State) : Prop where
  users : f.state.2.users = w.users
  same : ∀ r, r.presents = some x → (Accepts env f.state.2 r ↔
    Accepts env w r ∧ ∀ key, x.key env = some key → ¬ Deleted f key)
  others : ∀ T d, x ≠ .refresh T → (Accepts env f.state.2 (.refreshAccessToken T d) ↔
    Accepts env w (.refreshAccessToken T d) ∧ ((∃ token, x = .passwordReset token) →
      ∀ key, (Presented.refresh T).key env = some key → ¬ Deleted f key))

section Kinds
variable {f : Faulty Cmd State}

/-- Where no reset was asked for, a refresh token is accepted as before if its key is. -/
theorem others_iff {x : Presented} (hx : ∀ token, x ≠ .passwordReset token) {T : String}
    {d : IssueDraws}
    (h : Accepts env f.state.2 (.refreshAccessToken T d) ↔ Accepts env w (.refreshAccessToken T d)) :
    Accepts env f.state.2 (.refreshAccessToken T d) ↔
      Accepts env w (.refreshAccessToken T d) ∧ ((∃ token, x = .passwordReset token) →
        ∀ key, (Presented.refresh T).key env = some key → ¬ Deleted f key) := by
  rw [h]
  constructor
  · intro haccepts
    refine ⟨haccepts, ?_⟩
    rintro ⟨token, ht⟩
    exact absurd ht (hx token)
  · exact And.left

theorem Erased.leaves_emailVerify {token : String}
    (h : Erased w (· = {emailVerifyKey token}) (fun _ => False) f) :
    Leaves env w (.emailVerify token) f where
  users := h.users
  same r hr := by
    cases r with
    | verifyEmail token' =>
      obtain rfl := Presented.emailVerify.inj (Option.some.inj hr)
      rw [accepts_verifyEmail, accepts_verifyEmail, h.redeems id]
      simp [Presented.key]
    | _ => cases hr
  others T d _ := by
    refine others_iff (fun _ ht => by cases ht) ?_
    rw [h.accepts_refresh d fun _ _ => id]
    refine and_iff_left ?_
    rintro key hkey ⟨keys, hdone, hmem⟩
    obtain rfl := h.named keys hdone
    obtain ⟨p, -, rfl⟩ := Option.map_eq_some_iff.mp hkey
    simp at hmem

theorem Erased.leaves_passwordReset {token : String}
    (h : Erased w (ResetKeys token) (fun _ => False) f) :
    Leaves env w (.passwordReset token) f where
  users := h.users
  same r hr := by
    cases r with
    | resetPassword token' newPassword salt =>
      obtain rfl := Presented.passwordReset.inj (Option.some.inj hr)
      rw [accepts_resetPassword, accepts_resetPassword, h.redeems id]
      simp [Presented.key]
    | _ => cases hr
  others T d _ := by
    rw [h.accepts_refresh d fun _ _ => id]
    simp

theorem eq_refresh_of_presents {r : Request} {T : String} (hr : r.presents = some (.refresh T)) :
    ∃ d, r = .refreshAccessToken T d := by
  cases r with
  | refreshAccessToken T' d =>
    obtain rfl := Presented.refresh.inj (Option.some.inj hr)
    exact ⟨d, rfl⟩
  | _ => cases hr

/-- A token that does not decode has used nothing up. -/
theorem Erased.leaves_undecoded {T : String} (h : Erased w (fun _ => False) (fun _ => False) f) :
    Leaves env w (.refresh T) f where
  users := h.users
  same r hr := by
    obtain ⟨d, rfl⟩ := eq_refresh_of_presents hr
    exact h.accepts_refresh d fun _ _ => id
  others T' d _ := by
    refine others_iff (fun _ ht => by cases ht) ?_
    rw [h.accepts_refresh d fun _ _ => id]
    exact and_iff_left fun key _ ⟨keys, hdone, _⟩ => h.named keys hdone

theorem Erased.leaves_refresh (hw : Reachable env w) {T : String} {d : IssueDraws} {p : Claims}
    (hp : w.refreshClaims env T = some p) (hfresh : DrawsFresh env w (.refreshAccessToken T d))
    (h : Erased w (· = {refreshTokenKey p.jti}) (· = refreshTokenKey d.refreshJti.str) f) :
    Leaves env w (.refresh T) f where
  users := h.users
  same r hr := by
    obtain ⟨d', rfl⟩ := eq_refresh_of_presents hr
    exact h.accepts_refresh d' (hfresh.new T)
  others T' d' hne := by
    refine others_iff (fun _ ht => by cases ht) ?_
    rw [h.accepts_refresh d' (hfresh.new T')]
    refine and_iff_left_of_imp fun haccepts => ?_
    obtain ⟨q, u, hq, -⟩ := accepts_refreshAccessToken.mp haccepts
    obtain ⟨hq, -⟩ := (acceptedClaims_eq_some_iff env w).mp hq
    obtain ⟨hT', hdec', htype'⟩ := issued_of_refreshClaims hq
    obtain ⟨hT, hdec, htype⟩ := issued_of_refreshClaims hp
    rintro key hkey ⟨keys, hdone, hmem⟩
    obtain rfl := h.named keys hdone
    obtain ⟨q', hq', rfl⟩ := Option.map_eq_some_iff.mp hkey
    obtain rfl := Option.some.inj (hdec'.symm.trans hq')
    have hj : q.jti = p.jti := by simpa using hmem
    exact hne (by rw [hw.distinct hT hT' hdec hdec' htype htype' hj.symm])

end Kinds

end Left

/-- One of the three credential operations ends with an exception, at whatever command
something failed. No row has changed. A request with the same token is accepted
exactly if it was and no DEL has named the token's key; every other refresh token is
accepted exactly if it was and no reset has deleted its key. -/
theorem failed_request (env : Env) {w : World} (hw : Reachable env w) (r : Request) {x : Presented}
    (hx : r.presents = some x) (hfresh : DrawsFresh env w r) (left : Option Nat) {exc : Exc}
    (hfail : (serveFailing env left w r).1 = .error exc) :
    let f := (serveFailing env left w r).2
    f.state.2.users = w.users ∧
    (∀ r', r'.presents = some x → (Accepts env f.state.2 r' ↔
      Accepts env w r' ∧ ∀ key, x.key env = some key → ¬ Deleted f key)) ∧
    ∀ T d, x ≠ .refresh T → (Accepts env f.state.2 (.refreshAccessToken T d) ↔
      Accepts env w (.refreshAccessToken T d) ∧ ((∃ token, x = .passwordReset token) →
        ∀ key, (Presented.refresh T).key env = some key → ¬ Deleted f key)) := by
  intro f
  suffices hleaves : Leaves env w x f from ⟨hleaves.users, hleaves.same, hleaves.others⟩
  cases r with
  | verifyEmail token =>
    obtain rfl := Option.some.inj hx
    exact (verifyEmail_failed hfail).leaves_emailVerify
  | resetPassword token newPassword salt =>
    obtain rfl := Option.some.inj hx
    exact (resetPassword_failed hfail).leaves_passwordReset
  | refreshAccessToken T d =>
    obtain rfl := Option.some.inj hx
    rcases refreshAccessToken_failed hfail with ⟨-, h⟩ | ⟨p, hp, h⟩
    · exact h.leaves_undecoded
    · exact h.leaves_refresh hw hp hfresh
  | _ => cases hx

/-! ### A reset whose commit fails -/

/-- Ada has asked for a password reset. -/
def adaAsking : World :=
  (serveFailing plainEnv none { now := 1000, redis := Store.empty, users := [ada], issued := [] }
    (.requestPasswordReset "ada@example.com" "x")).2.state.2

theorem adaAsking_reachable : Reachable plainEnv adaAsking :=
  .request (.start 1000 [ada]) _ none fun _ h => by cases h

/-- The commit of Ada's reset, its sixth fallible command, fails. -/
abbrev resetFails : Except Exc Reply × Faulty Cmd State :=
  serveFailing plainEnv (some 5) adaAsking (.resetPassword "x" "battery staple" "s1")

/-- Ada's row is as before. -/
theorem failed_request_reset : resetFails.2.state.2.users = adaAsking.users :=
  (failed_request plainEnv adaAsking_reachable (.resetPassword "x" "battery staple" "s1")
    (x := .passwordReset "x") rfl (fun _ h => by cases h) (some 5)
    (by decide +kernel : resetFails.1 = .error .dbError)).1

/-- Her reset link was good and is used up, though her password has not changed. -/
theorem failed_reset_uses_token :
    Reachable plainEnv adaAsking ∧ resetFails.1 = .error .dbError ∧
      Accepts plainEnv adaAsking (.resetPassword "x" "battery staple" "s1") ∧
      ¬ Accepts plainEnv resetFails.2.state.2 (.resetPassword "x" "battery staple" "s1") := by
  refine ⟨adaAsking_reachable, by decide +kernel, ⟨.none, by decide +kernel⟩, ?_⟩
  rintro ⟨reply, h⟩
  have hrefused : (serve plainEnv resetFails.2.state.2
      (.resetPassword "x" "battery staple" "s1")).1 =
      .error (.invalidTokenError "Reset link is invalid or has expired.") := by decide +kernel
  rw [hrefused] at h
  cases h

end TaskMgtApp.Auth
