import TaskMgtApp.Auth.TokenIndex

/-!
# A password reset beside logins and refreshes

`reset_password` reads the index of its user, deletes the tokens it found, and
commits the new hash last. A session opened with the old password survives when
a login or a refresh has passed its check and not recorded its token at some
moment between that read and that commit; otherwise the reset ends them all.
-/
namespace TaskMgtApp.Auth

open TaskMgtApp.Common
open TaskMgtApp.Lib.Program TaskMgtApp.Lib.Program.Prog
open TaskMgtApp.Lib.Interleaving
open TaskMgtApp.Lib.ExpiringStore (Store)

/-- A request that may open or prolong a session. -/
def Request.opens : Request → Prop
  | .login .. | .refreshAccessToken .. => True
  | _ => False

theorem Request.opens.not_writesUsers {r : Request} (hr : r.opens) : ¬ r.writesUsers := by
  cases r with
  | login | refreshAccessToken => exact id
  | _ => exact absurd hr id

/-! ## What login, refresh and reset leave alone -/

section Frame
variable {env : Env} {r : Request} {φ φ' : Phase} {c : Cmd} {l : Session} {w : World}

/-- A quiet command of a request that writes no row leaves an empty session empty. -/
theorem exec_quiet_locals (hr : ¬ r.writesUsers) (hc : c.quiet r) :
    (exec env c ([], w)).2.1 = [] := by
  cases c with
  | add i e h n => exact absurd hc hr
  | assignEmailVerified user => exact absurd hc hr
  | assignPasswordHash user h => exact absurd hc id
  | incr k => simp only [exec]; split <;> rfl
  | decodeToken T => simp only [exec]; split <;> rfl
  | _ => rfl

/-- A login or a refresh has nothing in its database session. -/
theorem Move.locals_nil (hr : r.opens) (hm : Move env r φ c ([], w) φ') :
    (exec env c ([], w)).2.1 = [] := by
  cases hm with
  | quiet hc | quietRejected hc => exact exec_quiet_locals hr.not_writesUsers hc
  | assign hr' =>
    subst hr'
    exact absurd hr id
  | present hr hp | leave hr hp => simp
  | _ => rfl

/-- No login, refresh or reset sets the key of a reset token. -/
theorem Move.resetKey_before {x : String} {s : String}
    (hr : r.opens ∨ ∃ x newPassword salt, r = .resetPassword x newPassword salt)
    (hm : Move env r φ c (l, w) φ') (h : (exec env c (l, w)).2.2.text (pwdResetKey x) = some s) :
    w.text (pwdResetKey x) = some s := by
  have hlook : ∀ {redis : Redis}, redis.look w.now (pwdResetKey x) = w.redis.look w.now (pwdResetKey x) →
      World.text { w with redis := redis } (pwdResetKey x) = some s →
      w.text (pwdResetKey x) = some s := by
    intro redis hl ht
    unfold World.text Store.get at ht ⊢
    rwa [hl] at ht
  have hdelete : ∀ ks, (exec env (.delete ks) (l, w)).2.2.text (pwdResetKey x) = some s →
      w.text (pwdResetKey x) = some s := by
    intro ks ht
    by_cases hk : pwdResetKey x ∈ ks
    · simp [exec, World.text, Store.get, hk] at ht
    · exact hlook (by simp [hk]) ht
  have hquiet : c.quiet r → w.text (pwdResetKey x) = some s := by
    intro hc
    cases c with
    | set k v ex =>
      have hk : ∃ e, k = loginLockKey e := by
        rcases hr with hr | ⟨x, p, salt, rfl⟩
        · cases r with
          | login => exact hc
          | refreshAccessToken => exact absurd hc id
          | _ => exact absurd hr id
        · exact absurd hc id
      obtain ⟨e, rfl⟩ := hk
      exact hlook (by simp) h
    | delete ks => exact hdelete ks h
    | incr k =>
      obtain ⟨e, rfl⟩ := hc
      simp only [exec] at h
      split at h
      · rename_i n redis hi
        exact hlook (Store.look_incr_of_ne _ w.now hi (by simp)) h
      · exact h
    | expire k n =>
      obtain ⟨e, rfl⟩ := hc
      exact hlook (Store.look_expire_of_ne _ _ _ (by simp) n) h
    | add id e p n => simp only [exec] at h; split at h <;> exact h
    | decodeToken T => rwa [exec_decodeToken] at h
    | sadd k m | srem k m | respond ts | assignPasswordHash user p => exact absurd hc id
    | _ => exact h
  cases hm with
  | quiet hc | quietRejected hc => exact hquiet hc
  | set hd => exact hlook (by simp) h
  | cleared | take | drop | takeMalformed | dropMalformed | useResetToken | dropAll |
    unindexEmpty | unindex => exact hdelete _ h
  | present hr' hp | leave hr' hp => rwa [exec_decodeToken] at h
  | _ => exact h

end Frame

/-! ## The situation -/

/-- The row that a read by email returned. -/
def rowRead {ι : Type} (e : Lib.Interleaving.Event Cmd.Val Exc World ι) : Option User :=
  match e with
  | ⟨_, .getByEmail _, .ok (some user), _⟩ => some user
  | _ => none

/-- The row that the command, issued in this state, reads by email. -/
def readBy (env : Env) (c : Cmd) (s : State) : Option User :=
  match c with
  | .getByEmail email => (visibleRows s.1 s.2).find? fun u =>
      u.deletedAt.isNone && u.email == env.lower email
  | _ => none

theorem rowRead_event {ι : Type} (env : Env) (i : ι) (c : Cmd) (s : State) :
    rowRead ⟨i, c, (exec env c s).1, s.2⟩ = readBy env c s := by
  rcases s with ⟨l, w⟩
  cases c with
  | getByEmail email =>
    simp only [rowRead, readBy, exec]
    cases (visibleRows l w).find? fun u => u.deletedAt.isNone && u.email == env.lower email <;> rfl
  | _ => rfl

/-- The thread `t` is about to reset the password of `u`, whose hash is `old`; the
other threads are logins and refreshes. -/
structure ResetSetup {ι : Type} (env : Env) (w : World) (requests : ι → Request) (t : ι)
    (x newPassword salt : String) (u : UUID) (old : String) : Prop where
  reset : requests t = .resetPassword x newPassword salt
  others : ∀ i, i ≠ t → (requests i).opens
  token : w.text (pwdResetKey x) = some u.str
  rows : ∀ row ∈ w.users, row.id = u → row.passwordHash = old
  changes : env.hash newPassword salt ≠ old
  indexed : IndexComplete w
  fresh : FreshDraws env w requests

/-- Refresh tokens of `u` that descend from a login checked against the hash `old`:
handed out before, returned by such a login, or by a refresh with such a token. -/
inductive OldToken {ι : Type} (env : Env) (w : World) (requests : ι → Request) (u : UUID)
    (old : String) (c : Threads ι) : String → Prop
  | before {T : String} {p : Claims} (hT : T ∈ w.issued) (hp : env.decode T = some p)
      (htype : p.type = .refresh) (hsub : p.sub = u.str) : OldToken env w requests u old c T
  | login {i : ι} {e : Lib.Interleaving.Event Cmd.Val Exc World ι} {user : User} {a T : String}
      (hi : (requests i).isLogin) (he : e ∈ c.log) (hthread : e.thread = i)
      (hread : rowRead e = some user) (hid : user.id = u) (hhash : user.passwordHash = old)
      (ho : c.outcome i = some (.ok (.tokenPair a T))) : OldToken env w requests u old c T
  | refresh {i : ι} {T' : String} {d : IssueDraws} {a T : String}
      (hi : requests i = .refreshAccessToken T' d) (hT' : OldToken env w requests u old c T')
      (ho : c.outcome i = some (.ok (.tokenPair a T))) : OldToken env w requests u old c T

def Cmd.readsIndex : Cmd → Bool
  | .smembers _ => true
  | _ => false

/-- The reset has read an index and has not committed. -/
def InWindow {ι : Type} (t : ι) (c : Threads ι) : Prop :=
  (∃ e ∈ c.log, e.thread = t ∧ e.command.readsIndex) ∧
  ∀ e ∈ c.log, e.thread = t → e.command ≠ .commit

instance {ι : Type} [DecidableEq ι] (t : ι) (c : Threads ι) : Decidable (InWindow t c) :=
  inferInstanceAs (Decidable (_ ∧ _))

/-- The request of the thread has passed its check for `u` and has yet to record its
token: it will do so whatever states its commands meet. -/
def WillRecord {ι : Type} (env : Env) (u : UUID) (c : Threads ι) (i : ι) : Prop :=
  Inevitable (exec env) (fun cmd => ∃ j, cmd = .sadd (userTokensKey u) j) (c.threads i).prog

/-- While the reset is between its reading of the index and its commit, no login or
refresh is between its check and the recording of its token. -/
def Undisturbed {ι : Type} (env : Env) (t : ι) (u : UUID) (c : Threads ι) (_ : Act ι Nat) : Prop :=
  InWindow t c → ∀ i, ¬ WillRecord env u c i

/-! ## Phases of logins and refreshes -/

namespace Phase

/-- The phases of a login or a refresh. -/
def opening : Phase → Prop
  | .idle | .rejected | .presenting _ | .holding _ | .spending .. | .issuing _ | .recording _
  | .issued _ | .malformed => True
  | _ => False

/-- Past the check for `u`, with the token yet to be recorded. -/
inductive BoundFor (u : UUID) : Phase → Prop
  | holding {p : Claims} (hp : p.sub = u.str) : BoundFor u (.holding p)
  | spending {p : Claims} : BoundFor u (.spending p u)
  | issuing : BoundFor u (.issuing u)
  | recording : BoundFor u (.recording u)

/-- Issuing a token of `u`, or done with it. -/
inductive IssuesFor (u : UUID) : Phase → Prop
  | issuing : IssuesFor u (.issuing u)
  | recording : IssuesFor u (.recording u)
  | issued : IssuesFor u (.issued u)

end Phase

section Phases
variable {env : Env} {r : Request} {φ φ' : Phase} {c : Cmd} {s : State} {u : UUID}

theorem Move.opening (hr : r.opens) (hφ : φ.opening) (hm : Move env r φ c s φ') : φ'.opening := by
  cases hm with
  | leave hr' | seek hr' => rw [hr'] at hr; exact absurd hr id
  | drop | unlist | missing | found | assign | useResetToken | snapshot | dropAll | unindexEmpty
  | unindex | close | dropMalformed => exact absurd hφ id
  | _ => trivial

private theorem delete_ne_index {v : UUID} {ks : Finset String} (h : userTokensKey v ∉ ks) :
    Cmd.delete ks ≠ .delete {userTokensKey v} := by
  intro he
  rw [Cmd.delete.inj he] at h
  exact h (Finset.mem_singleton_self _)

/-- A login or a refresh deletes no index. -/
theorem Move.keeps_index (hφ : φ.opening) (hm : Move env r φ c s φ') (v : UUID) :
    c ≠ .delete {userTokensKey v} := by
  intro hc
  cases hm with
  | quiet h | quietRejected h =>
    subst hc
    exact (h _ (Finset.mem_singleton_self _)).2 v rfl
  | unindexEmpty | unindex | drop | dropAll | dropMalformed | useResetToken => exact absurd hφ id
  | cleared => exact delete_ne_index (by simp) hc
  | take hsub | takeMalformed hsub => exact delete_ne_index (by simp) hc
  | _ => cases hc

/-- Past its check, a thread reads no row and ends up with its token issued. -/
theorem Move.bound_or_issued (hφ : φ.BoundFor u ∨ φ = .issued u) (hm : Move env r φ c s φ') :
    (φ'.BoundFor u ∨ φ' = .issued u) ∧ readBy env c s = none := by
  rcases hφ with hφ | rfl
  · cases hφ with
    | holding hp =>
      cases hm with
      | take hsub =>
        obtain rfl := UUID.str_inj.mp (hp.symm.trans hsub)
        exact ⟨.inl .spending, rfl⟩
      | takeMalformed hnone =>
        rw [hp, UUID.parse_str] at hnone
        cases hnone
    | spending =>
      cases hm
      exact ⟨.inl .issuing, rfl⟩
    | issuing =>
      cases hm with
      | cleared | clock => exact ⟨.inl .issuing, rfl⟩
      | set hd => exact ⟨.inl .recording, rfl⟩
    | recording =>
      cases hm
      exact ⟨.inr rfl, rfl⟩
  · cases hm <;> exact ⟨.inr rfl, rfl⟩

/-- A thread past its check for `u` stays so until it records its token. -/
theorem Move.bound (hφ : φ.BoundFor u) (hm : Move env r φ c s φ') :
    (∃ j, c = .sadd (userTokensKey u) j) ∨ φ'.BoundFor u := by
  rcases (hm.bound_or_issued (.inl hφ)).1 with hφ' | rfl
  · exact .inr hφ'
  · cases hm with
    | sadd hd => cases hφ; exact .inl ⟨_, rfl⟩
    | commitIssued | respond => cases hφ

/-- A login or a refresh comes to its check for `u` by reading a row of `u`, or by
finding the key of its token. -/
theorem Move.bound_before {l : Session} {w : World} (hm : Move env r φ c (l, w) φ')
    (hφ' : φ'.BoundFor u) :
    φ.BoundFor u ∨
    (φ = .idle ∧ ∃ e password d user, r = .login e password d ∧ c = .getByEmail (env.lower e) ∧
      user ∈ visibleRows l w ∧ user.id = u ∧ readBy env c (l, w) = some user) ∨
    (∃ p, φ = .presenting p ∧ w.LiveToken u p.jti ∧ p.sub = u.str) := by
  cases hφ' with
  | holding hp =>
    cases hm with
    | pass htext => exact .inr (.inr ⟨_, rfl, htext.trans (congrArg some hp), hp⟩)
  | spending =>
    cases hm with
    | take hsub => exact .inl (.holding hsub)
  | issuing =>
    cases hm with
    | checked hr hfound hvalid hverified =>
      exact .inr (.inl ⟨rfl, _, _, _, _, hr, rfl, List.mem_of_find?_eq_some hfound, rfl, hfound⟩)
    | cleared | clock => exact .inl .issuing
    | spend => exact .inl .spending
  | recording =>
    cases hm
    exact .inl .issuing

end Phases

/-! ## What holds at every moment -/

section Runs
variable {ι : Type} {env : Env} {w : World} {requests : ι → Request} {t : ι}
  {x newPassword salt : String} {u : UUID} {old : String} {φ : ι → Phase} {c : Threads ι}

/-- A thread past its check for `u` will record its token. -/
theorem willRecord_of_boundFor
    (hobey : AllObey (machine env) (fun i => Move env (requests i)) (fun i => Final env (requests i))
      φ c) {i : ι} (hi : (φ i).BoundFor u) : WillRecord env u c i := by
  have : Nonempty (Session × World) := ⟨((c.threads i).locals, c.world)⟩
  refine (hobey i).inevitable (A := fun ψ => ψ.BoundFor u) hi ?_ ?_
  · intro ψ o hψ hfinal
    cases hψ <;> cases hfinal
  · intro ψ cmd s ψ' hψ hm
    exact hm.bound hψ

/-- The sessions of the threads beside the reset, and the users that logins and
refreshes act for. -/
structure Sessions (env : Env) (requests : ι → Request) (t : ι) (x : String) (u : UUID)
    (φ : ι → Phase) (c : Threads ι) : Prop where
  books : Books env requests φ c
  locals : ∀ i, i ≠ t → (c.threads i).locals = []
  opening : ∀ i, i ≠ t → (φ i).opening
  token : ∀ v, c.world.text (pwdResetKey x) = some v.str → v = u
  reads : ∀ e ∈ c.log, ∀ user, rowRead e = some user → (requests e.thread).isLogin →
    φ e.thread = .rejected ∨ (φ e.thread).IssuesFor user.id
  carried : ∀ i T d p, requests i = .refreshAccessToken T d → (φ i).claims = some p →
    env.decode T = some p
  spending : ∀ i p v, φ i = .spending p v → p.sub = v.str
  refreshes : ∀ i T d p v, requests i = .refreshAccessToken T d → env.decode T = some p →
    (φ i).IssuesFor v → p.sub = v.str

theorem Sessions.start (h : ResetSetup env w requests t x newPassword salt u old) :
    Sessions env requests t x u (fun _ => .idle) (beside env w requests) where
  books := .start h.fresh
  locals i _ := rfl
  opening i _ := trivial
  token v hv := UUID.str_inj.mp (Option.some.inj (hv.symm.trans h.token))
  reads e he := by cases he
  carried i T d p _ hp := by cases hp
  spending i p v hi := by cases hi
  refreshes i T d p v _ _ hi := by cases hi

theorem Sessions.drift [DecidableEq ι] (h : Sessions env requests t x u φ c) (n : Nat) :
    Sessions env requests t x u φ (c.step (machine env) (.drift n)) where
  books := h.books.drift n
  locals := h.locals
  opening := h.opening
  token v hv := h.token v (World.text_of_later hv)
  reads := h.reads
  carried := h.carried
  spending := h.spending
  refreshes := h.refreshes

variable [DecidableEq ι] {i : ι} {cmd : Cmd} {k : Except Exc cmd.Val → AuthM Reply} {φ' : Phase}

/-- What a login reads decides what it does from then on. -/
theorem Move.read {r : Request} {ψ ψ' : Phase} {s : State} (hr : r.isLogin)
    (hm : Move env r ψ cmd s ψ') {user : User} (hread : readBy env cmd s = some user) :
    ψ' = .rejected ∨ ψ'.IssuesFor user.id := by
  cases hm with
  | quiet hc =>
    cases cmd with
    | getByEmail e => exact absurd hr hc
    | _ => cases hread
  | quietRejected hc => exact .inl rfl
  | reject hr' => exact .inl rfl
  | checked hr' hfound hvalid hverified =>
    obtain rfl := Option.some.inj (hfound.symm.trans hread)
    exact .inr .issuing
  | _ => cases hread

theorem Move.rejected_or_issues {r : Request} {ψ ψ' : Phase} {s : State}
    (hm : Move env r ψ cmd s ψ') {v : UUID} (hψ : ψ = .rejected ∨ ψ.IssuesFor v) :
    ψ' = .rejected ∨ ψ'.IssuesFor v := by
  rcases hψ with rfl | hψ
  · cases hm
    exact .inl rfl
  · cases hψ with
    | issuing =>
      cases hm with
      | cleared | clock => exact .inr .issuing
      | set hd => exact .inr .recording
    | recording =>
      cases hm
      exact .inr .issued
    | issued =>
      rw [hm.from_issued]
      exact .inr .issued

theorem Move.carried {r : Request} {ψ ψ' : Phase} {s : State} {T : String} {d : IssueDraws}
    {p : Claims} (hr : r = .refreshAccessToken T d) (hm : Move env r ψ cmd s ψ')
    (hp : ψ'.claims = some p) : ψ.claims = some p ∨ env.decode T = some p := by
  cases hm with
  | present hr' hp' =>
    obtain ⟨-, hd, -⟩ := issued_of_refreshClaims hp'
    obtain ⟨rfl, -⟩ := Request.refreshAccessToken.inj (hr'.symm.trans hr)
    exact .inr (Option.some.inj hp ▸ hd)
  | leave hr' hp' => rw [hr] at hr'; cases hr'
  | pass | take | drop => exact .inl hp
  | _ => cases hp

theorem Move.spending_sub {r : Request} {ψ : Phase} {s : State} {p : Claims} {v : UUID}
    (hm : Move env r ψ cmd s (.spending p v)) : p.sub = v.str := by
  cases hm with
  | take hsub => exact hsub

theorem Move.issuesFor_before {r : Request} {ψ ψ' : Phase} {s : State} {v : UUID}
    (hm : Move env r ψ cmd s ψ') (h : ψ'.IssuesFor v) :
    ψ.IssuesFor v ∨ (∃ p, ψ = .spending p v) ∨ r.isLogin := by
  cases h with
  | issuing =>
    cases hm with
    | checked hr hfound hvalid hverified => exact .inr (.inr (hr ▸ trivial))
    | cleared | clock => exact .inl .issuing
    | spend => exact .inr (.inl ⟨_, rfl⟩)
  | recording =>
    cases hm
    exact .inl .issuing
  | issued =>
    cases hm with
    | sadd hd => exact .inl .recording
    | commitIssued | respond => exact .inl .issued

theorem Sessions.move (hsetup : ResetSetup env w requests t x newPassword salt u old)
    (h : Sessions env requests t x u φ c)
    (hm : Move env (requests i) (φ i) cmd ((c.threads i).locals, c.world) φ') :
    Sessions env requests t x u (Function.update φ i φ') (c.issue (machine env) i cmd k) where
  books := h.books.move hsetup.fresh.distinct hm
  locals j hj := by
    by_cases hji : j = i
    · subst hji
      rw [h.locals j hj] at hm
      rw [Config.threads_issue_self]
      simp only [machine, h.locals j hj]
      exact hm.locals_nil (hsetup.others j hj)
    · rw [Config.threads_issue_of_ne hji]
      exact h.locals j hj
  opening j hj := by
    by_cases hji : j = i
    · subst hji
      rw [Function.update_self]
      exact hm.opening (hsetup.others j hj) (h.opening j hj)
    · rw [Function.update_of_ne hji]
      exact h.opening j hj
  token v hv := by
    rw [world_issue] at hv
    refine h.token v (hm.resetKey_before ?_ hv)
    by_cases hi : i = t
    · exact .inr ⟨x, newPassword, salt, hi ▸ hsetup.reset⟩
    · exact .inl (hsetup.others i hi)
  reads e he user hread hlogin := by
    rcases List.mem_cons.mp he with rfl | he
    · rw [Function.update_self]
      refine hm.read hlogin ?_
      rw [← hread]
      exact (rowRead_event env i cmd _).symm
    · by_cases hei : e.thread = i
      · rw [hei, Function.update_self]
        exact hm.rejected_or_issues (hei ▸ h.reads e he user hread hlogin)
      · rw [Function.update_of_ne hei]
        exact h.reads e he user hread hlogin
  carried j T d p hj hp := by
    by_cases hji : j = i
    · subst hji
      rw [Function.update_self] at hp
      exact (hm.carried hj hp).elim (h.carried j T d p hj) id
    · rw [Function.update_of_ne hji] at hp
      exact h.carried j T d p hj hp
  spending j p v hj := by
    by_cases hji : j = i
    · subst hji
      rw [Function.update_self] at hj
      exact (hj ▸ hm).spending_sub
    · rw [Function.update_of_ne hji] at hj
      exact h.spending j p v hj
  refreshes j T d p v hj hp hφ := by
    by_cases hji : j = i
    · subst hji
      rw [Function.update_self] at hφ
      rcases hm.issuesFor_before hφ with hbefore | ⟨q, hq⟩ | hlogin
      · exact h.refreshes j T d p v hj hp hbefore
      · have hcarried := h.carried j T d q hj (by rw [hq]; rfl)
        obtain rfl := Option.some.inj (hp.symm.trans hcarried)
        exact h.spending j p v hq
      · rw [hj] at hlogin
        exact absurd hlogin id
    · rw [Function.update_of_ne hji] at hφ
      exact h.refreshes j T d p v hj hp hφ

end Runs

/-! ## The reset, step by step -/

/-- The session holds the new hash of `u`, loaded with the old one. -/
def Pending (env : Env) (newPassword salt : String) (u : UUID) (old : String) (l : Session) : Prop :=
  ∃ user : User, user.id = u ∧ user.passwordHash = old ∧
    l = [.passwordHash user (env.hash newPassword salt)]

def OldRows (u : UUID) (old : String) (w : World) : Prop :=
  ∀ row ∈ w.users, row.id = u → row.passwordHash = old

/-- The reset before it reads the index, with its session. -/
inductive Ahead (env : Env) (newPassword salt : String) (u : UUID) (old : String) :
    Phase → Session → Prop
  | idle : Ahead env newPassword salt u old .idle []
  | seeking : Ahead env newPassword salt u old (.seeking u) []
  | resetting {user : User} (hid : user.id = u) (hhash : user.passwordHash = old) :
      Ahead env newPassword salt u old (.resetting user) []
  | assigned {l : Session} (h : Pending env newPassword salt u old l) :
      Ahead env newPassword salt u old (.assigned u) l

section Reset
variable {env : Env} {x newPassword salt : String} {u : UUID} {old : String} {ψ ψ' : Phase}
  {cmd : Cmd} {l : Session} {w : World}

theorem Ahead.move (h : Ahead env newPassword salt u old ψ l) (hrows : OldRows u old w)
    (htoken : ∀ v, w.text (pwdResetKey x) = some v.str → v = u)
    (hm : Move env (.resetPassword x newPassword salt) ψ cmd (l, w) ψ') :
    cmd ≠ .commit ∧ (∀ v, cmd ≠ .delete {userTokensKey v}) ∧
      (Ahead env newPassword salt u old ψ' (exec env cmd (l, w)).2.1 ∨
        (ψ' = .dropping u (w.redis.sets (userTokensKey u)) ∧ cmd = .smembers (userTokensKey u) ∧
          Pending env newPassword salt u old (exec env cmd (l, w)).2.1)) := by
  cases h with
  | idle =>
    cases hm with
    | quiet hc =>
      refine ⟨?_, ?_, .inl ?_⟩
      · rintro rfl
        exact hc x newPassword salt rfl
      · rintro v rfl
        exact (hc _ (Finset.mem_singleton_self _)).2 v rfl
      · rw [exec_quiet_locals id hc]
        exact .idle
    | seek hr hx =>
      obtain ⟨rfl, -⟩ := Request.resetPassword.inj hr
      obtain rfl := htoken _ hx
      exact ⟨by simp, by simp, .inl .seeking⟩
    | reject hr => exact absurd hr id
    | checked hr | present hr | leave hr => cases hr
  | seeking =>
    cases hm with
    | missing => exact ⟨by simp, by simp, .inl .idle⟩
    | found hfound =>
      have hmem := List.mem_of_find?_eq_some hfound
      have hhash := hrows _ (by simpa [visibleRows] using hmem) rfl
      exact ⟨by simp, by simp, .inl (.resetting rfl hhash)⟩
  | resetting hid hhash =>
    cases hm with
    | assign hr =>
      obtain ⟨-, rfl, rfl⟩ := Request.resetPassword.inj hr
      obtain rfl := hid
      exact ⟨by simp, by simp, .inl (.assigned ⟨_, rfl, hhash, rfl⟩)⟩
  | assigned hpending =>
    cases hm with
    | useResetToken => exact ⟨by simp, fun v => delete_ne_index (by simp), .inl (.assigned hpending)⟩
    | snapshot => exact ⟨by simp, by simp, .inr ⟨rfl, rfl, hpending⟩⟩

/-- The commit of a pending session gives every row of `u` the new hash. -/
theorem Pending.commit (h : Pending env newPassword salt u old l)
    (hchanges : env.hash newPassword salt ≠ old) {row : User}
    (hrow : row ∈ (exec env .commit (l, w)).2.2.users) (hid : row.id = u) :
    row.passwordHash ≠ old := by
  obtain ⟨user, rfl, rfl, rfl⟩ := h
  simp only [exec, List.foldl_cons, List.foldl_nil, UserWrite.apply, List.mem_map] at hrow
  obtain ⟨before, -, rfl⟩ := hrow
  by_cases hb : before.id = user.id
  · simp [UserWrite.applyRow, hb, Ne.symm hchanges, hchanges]
  · simp [UserWrite.applyRow, hb] at hid

end Reset

/-! ## The three stages of a run -/

section Stages
variable {ι : Type} {env : Env} {w : World} {requests : ι → Request} {t : ι}
  {x newPassword salt : String} {u : UUID} {old : String} {φ : ι → Phase} {c : Threads ι}

/-- The request that drew `j` is in the set. -/
def DrawnIn (requests : ι → Request) (N : Set ι) (j : String) : Prop :=
  ∃ i ∈ N, ∃ d, (requests i).draws = some d ∧ d.refreshJti.str = j

/-- The reset has not read the index. -/
structure Before (env : Env) (requests : ι → Request) (t : ι) (newPassword salt : String) (u : UUID)
    (old : String) (φ : ι → Phase) (c : Threads ι) : Prop where
  phase : Ahead env newPassword salt u old (φ t) (c.threads t).locals
  listed : Listed requests φ c
  rows : OldRows u old c.world
  uncommitted : ∀ e ∈ c.log, e.thread = t → e.command ≠ .commit

/-- What the reset has left to do to the live tokens of `u`. -/
inductive Dropping (u : UUID) (φ : ι → Phase) (w : World) : Phase → Prop
  | dropping {jtis : Finset String} (h : ∀ j, w.LiveToken u j → j ∈ jtis ∨ ∃ i, φ i = .recording u) :
      Dropping u φ w (.dropping u jtis)
  | unindexing (h : ∀ j, ¬ w.LiveToken u j) : Dropping u φ w (.unindexing u)
  | closing (h : ∀ j, ¬ w.LiveToken u j) : Dropping u φ w (.closing u)

/-- The reset has read the index and not committed. -/
structure During (env : Env) (t : ι) (newPassword salt : String) (u : UUID) (old : String)
    (φ : ι → Phase) (c : Threads ι) : Prop where
  phase : Dropping u φ c.world (φ t)
  pending : Pending env newPassword salt u old (c.threads t).locals
  rows : OldRows u old c.world
  window : InWindow t c

/-- The reset has committed; `N` are the threads that passed their check for `u` since. -/
structure After (env : Env) (requests : ι → Request) (t : ι) (u : UUID) (old : String) (N : Set ι)
    (φ : ι → Phase) (c : Threads ι) : Prop where
  phase : φ t = .closed u
  rows : ∀ row ∈ c.world.users, row.id = u → row.passwordHash ≠ old
  live : ∀ j, c.world.LiveToken u j → DrawnIn requests N j
  bound : ∀ i, (φ i).BoundFor u → i ∈ N
  members : ∀ i ∈ N, (φ i).BoundFor u ∨ φ i = .issued u
  reads : ∀ e ∈ c.log, ∀ user, rowRead e = some user → (requests e.thread).isLogin →
    e.thread ∈ N → user.passwordHash ≠ old
  refreshed : ∀ i ∈ N, ∀ T d p, requests i = .refreshAccessToken T d → env.decode T = some p →
    DrawnIn requests N p.jti

theorem DrawnIn.mono {N M : Set ι} {j : String} (h : DrawnIn requests N j) (hle : N ⊆ M) :
    DrawnIn requests M j := by
  obtain ⟨i, hi, hd⟩ := h
  exact ⟨i, hle hi, hd⟩

/-- Live tokens stay accounted for while none is added. -/
theorem Dropping.mono {w' : World} {ψ : Phase} {φ₁ : ι → Phase} (h : Dropping u φ w ψ)
    (hlive : ∀ j, w'.LiveToken u j → w.LiveToken u j)
    (hrecording : ∀ i, φ i = .recording u → φ₁ i = .recording u) : Dropping u φ₁ w' ψ := by
  cases h with
  | dropping h =>
    refine .dropping fun j hl => ?_
    rcases h j (hlive j hl) with hj | ⟨i, hi⟩
    · exact .inl hj
    · exact .inr ⟨i, hrecording i hi⟩
  | unindexing h => exact .unindexing fun j hl => h j (hlive j hl)
  | closing h => exact .closing fun j hl => h j (hlive j hl)

/-- Where a run is with respect to the reset. -/
def Stage (env : Env) (requests : ι → Request) (t : ι) (newPassword salt : String) (u : UUID)
    (old : String) (φ : ι → Phase) (c : Threads ι) : Prop :=
  Before env requests t newPassword salt u old φ c ∨
  During env t newPassword salt u old φ c ∨ ∃ N, After env requests t u old N φ c

/-- Once the reset has returned, its commit is done. -/
theorem Stage.returned (hsetup : ResetSetup env w requests t x newPassword salt u old)
    (h : Stage env requests t newPassword salt u old φ c) {r : Reply}
    (hfinal : Final env (requests t) (φ t) (.ok r)) : ∃ N, After env requests t u old N φ c := by
  rcases h with h | h | h
  · have hphase := h.phase
    generalize φ t = ψ at hfinal hphase
    generalize (c.threads t).locals = l at hphase
    cases hphase <;> cases hfinal
    rename_i hreset _ _
    exact absurd hsetup.reset (hreset _ _ _)
  · have hphase := h.phase
    generalize φ t = ψ at hfinal hphase
    cases hphase <;> cases hfinal
  · exact h

/-- After the commit, the tokens of old sessions are none of those drawn since. -/
theorem OldToken.not_drawn (hsetup : ResetSetup env w requests t x newPassword salt u old)
    (hobey : AllObey (machine env) (fun i => Move env (requests i)) (fun i => Final env (requests i))
      φ c)
    (hs : Sessions env requests t x u φ c) {N : Set ι} (h : After env requests t u old N φ c)
    {T : String} (hT : OldToken env w requests u old c T) :
    ∃ p, env.decode T = some p ∧ p.sub = u.str ∧ ¬ DrawnIn requests N p.jti := by
  have hreturned : ∀ i a T, c.outcome i = some (.ok (.tokenPair a T)) →
      ∃ v q, φ i = .issued v ∧ env.decode T = some q ∧ MintedBy (requests i) v q := by
    intro i a T ho
    have hfinal := hobey.final ho
    generalize φ i = ψ at hfinal
    cases hfinal with
    | issued hdec hminted => exact ⟨_, _, rfl, hdec, hminted⟩
    | done hreset hrefresh hreply => exact absurd rfl (hreply a T)
  have hself : ∀ i v q, MintedBy (requests i) v q → DrawnIn requests N q.jti → i ∈ N := by
    rintro i v q hminted ⟨k, hk, d', hd', hj'⟩
    obtain ⟨d, hd, hj⟩ := hminted.jti
    obtain rfl := hsetup.fresh.distinct k i d' d hd' hd (hj'.trans hj)
    exact hk
  induction hT with
  | before hissued hdec htype hsub =>
    refine ⟨_, hdec, hsub, ?_⟩
    rintro ⟨i, -, d, hd, hj⟩
    exact hsetup.fresh.unissued i d _ _ hd hissued hdec htype hj
  | @login i e user a T hlogin he hthread hread hid hhash ho =>
    obtain ⟨v, q, hφ, hdec, hminted⟩ := hreturned i a T ho
    have hreads := hs.reads e he user hread (hthread ▸ hlogin)
    rw [hthread, hφ, hid] at hreads
    obtain rfl : v = u := by
      rcases hreads with hreads | hreads
      · cases hreads
      · cases hreads
        rfl
    refine ⟨q, hdec, hminted.sub, fun hdrawn => ?_⟩
    have hiN := hself i v q hminted hdrawn
    exact h.reads e he user hread (hthread ▸ hlogin) (hthread ▸ hiN) hhash
  | @refresh i T' d a T hreq hT' ho ih =>
    obtain ⟨v, q, hφ, hdec, hminted⟩ := hreturned i a T ho
    obtain ⟨p, hp, hsub, hnot⟩ := ih
    have hv := hs.refreshes i T' d p v hreq hp (hφ ▸ .issued)
    obtain rfl := UUID.str_inj.mp (hsub.symm.trans hv)
    exact ⟨q, hdec, hminted.sub, fun hdrawn =>
      hnot (h.refreshed i (hself i u q hminted hdrawn) T' d p hreq hp)⟩

variable [DecidableEq ι] {i : ι} {cmd : Cmd} {k : Except Exc cmd.Val → AuthM Reply} {φ' : Phase}

/-- A thread beside the reset leaves the table alone. -/
theorem users_issue (h : Sessions env requests t x u φ c) (hi : i ≠ t) :
    (c.issue (machine env) i cmd k).world.users = c.world.users := by
  rw [world_issue]
  exact exec_users (.inr (h.locals i hi))

theorem Before.move_other (hs : Sessions env requests t x u φ c)
    (h : Before env requests t newPassword salt u old φ c) (hi : i ≠ t)
    (hm : Move env (requests i) (φ i) cmd ((c.threads i).locals, c.world) φ') :
    Before env requests t newPassword salt u old (Function.update φ i φ')
      (c.issue (machine env) i cmd k) where
  phase := by
    rw [Function.update_of_ne hi.symm, Config.threads_issue_of_ne hi.symm]
    exact h.phase
  listed := h.listed.move hs.books hm fun v hv => absurd hv (hm.keeps_index (hs.opening i hi) v)
  rows := by
    unfold OldRows
    rw [users_issue hs hi]
    exact h.rows
  uncommitted e he ht := by
    rcases List.mem_cons.mp he with rfl | he
    · exact absurd ht hi
    · exact h.uncommitted e he ht

theorem Before.move_reset (hsetup : ResetSetup env w requests t x newPassword salt u old)
    (hs : Sessions env requests t x u φ c)
    (h : Before env requests t newPassword salt u old φ c)
    (hm : Move env (requests t) (φ t) cmd ((c.threads t).locals, c.world) φ') :
    Before env requests t newPassword salt u old (Function.update φ t φ')
        (c.issue (machine env) t cmd k) ∨
      During env t newPassword salt u old (Function.update φ t φ')
        (c.issue (machine env) t cmd k) := by
  have hm' := hsetup.reset ▸ hm
  obtain ⟨hcommit, hkeep, hphase⟩ := h.phase.move h.rows hs.token hm'
  have husers : (c.issue (machine env) t cmd k).world.users = c.world.users := by
    rw [world_issue]
    exact exec_users (.inl hcommit)
  have hrows : OldRows u old (c.issue (machine env) t cmd k).world := by
    unfold OldRows
    rw [husers]
    exact h.rows
  have huncommitted : ∀ e ∈ (c.issue (machine env) t cmd k).log, e.thread = t →
      e.command ≠ .commit := by
    intro e he ht
    rcases List.mem_cons.mp he with rfl | he
    · exact hcommit
    · exact h.uncommitted e he ht
  rcases hphase with hphase | ⟨rfl, rfl, hpending⟩
  · left
    refine ⟨?_, ?_, hrows, huncommitted⟩
    · rw [Function.update_self, Config.threads_issue_self]
      exact hphase
    · exact h.listed.move hs.books hm fun v hv => absurd hv (hkeep v)
  · right
    refine ⟨?_, ?_, hrows, ⟨_, List.mem_cons_self .., rfl, rfl⟩, huncommitted⟩
    · rw [Function.update_self]
      refine .dropping fun j hl => ?_
      rcases h.listed u j hl with hj | ⟨a, d, ha, -⟩
      · exact .inl hj
      · have hat : a ≠ t := by
          rintro rfl
          have hp := h.phase
          rw [ha] at hp
          cases hp
        exact .inr ⟨a, by rw [Function.update_of_ne hat, ha]⟩
    · rw [Config.threads_issue_self]
      exact hpending

theorem During.move_other (hs : Sessions env requests t x u φ c)
    (h : During env t newPassword salt u old φ c) (hquiet : ∀ i, ¬ (φ i).BoundFor u) (hi : i ≠ t)
    (hm : Move env (requests i) (φ i) cmd ((c.threads i).locals, c.world) φ') :
    During env t newPassword salt u old (Function.update φ i φ') (c.issue (machine env) i cmd k) where
  phase := by
    rw [Function.update_of_ne hi.symm]
    refine h.phase.mono (fun j hl => ?_) (fun a ha => absurd (ha ▸ .recording) (hquiet a))
    rcases hm.live_before hl with hl | ⟨hissuing, -⟩
    · exact hl
    · exact absurd (hissuing ▸ .issuing) (hquiet i)
  pending := by
    rw [Config.threads_issue_of_ne hi.symm]
    exact h.pending
  rows := by
    unfold OldRows
    rw [users_issue hs hi]
    exact h.rows
  window := by
    obtain ⟨⟨e, he, hread⟩, hcommit⟩ := h.window
    refine ⟨⟨e, List.mem_cons_of_mem _ he, hread⟩, fun e he ht => ?_⟩
    rcases List.mem_cons.mp he with rfl | he
    · exact absurd ht hi
    · exact hcommit e he ht

/-- The reset issues a command that is neither its commit nor the end of its work. -/
theorem During.of_delete (h : During env t newPassword salt u old φ c) {ks : Finset String}
    {k : Except Exc (Cmd.delete ks).Val → AuthM Reply} {ψ : Phase}
    (hphase : Dropping u (Function.update φ t ψ) (c.issue (machine env) t (.delete ks) k).world ψ) :
    During env t newPassword salt u old (Function.update φ t ψ)
      (c.issue (machine env) t (.delete ks) k) where
  phase := by
    rw [Function.update_self]
    exact hphase
  pending := by
    rw [Config.threads_issue_self]
    exact h.pending
  rows := h.rows
  window := by
    obtain ⟨⟨e, he, hread⟩, hcommit⟩ := h.window
    refine ⟨⟨e, List.mem_cons_of_mem _ he, hread⟩, fun e he ht => ?_⟩
    rcases List.mem_cons.mp he with rfl | he
    · simp
    · exact hcommit e he ht

theorem During.move_reset (hsetup : ResetSetup env w requests t x newPassword salt u old)
    (h : During env t newPassword salt u old φ c) (hquiet : ∀ i, ¬ (φ i).BoundFor u)
    (hm : Move env (requests t) (φ t) cmd ((c.threads t).locals, c.world) φ') :
    During env t newPassword salt u old (Function.update φ t φ') (c.issue (machine env) t cmd k) ∨
      After env requests t u old ∅ (Function.update φ t φ') (c.issue (machine env) t cmd k) := by
  have hphase := h.phase
  generalize hψ : φ t = ψ at hm hphase
  cases hphase with
  | @dropping jtis hlive =>
    have hlisted : ∀ j, c.world.LiveToken u j → j ∈ jtis := by
      intro j hl
      rcases hlive j hl with hj | ⟨i, hi⟩
      · exact hj
      · exact absurd (hi ▸ .recording) (hquiet i)
    left
    cases hm with
    | dropAll =>
      refine h.of_delete (.unindexing fun j hl => ?_)
      rw [world_issue, liveToken_delete] at hl
      exact hl.1 (Finset.mem_image_of_mem _ (hlisted j hl.2))
    | unindexEmpty =>
      refine h.of_delete (.closing fun j hl => ?_)
      rw [world_issue, liveToken_delete] at hl
      exact absurd (hlisted j hl.2) (Finset.notMem_empty j)
  | unindexing hnone =>
    left
    cases hm with
    | unindex =>
      refine h.of_delete (.closing fun j hl => ?_)
      rw [world_issue, liveToken_delete] at hl
      exact hnone j hl.2
  | closing hnone =>
    right
    cases hm with
    | close =>
      refine ⟨?_, ?_, ?_, ?_, ?_, ?_, ?_⟩
      · exact Function.update_self ..
      · intro row hrow hid
        exact h.pending.commit hsetup.changes hrow hid
      · intro j hl
        exact absurd hl (hnone j)
      · intro a ha
        by_cases hat : a = t
        · subst hat
          rw [Function.update_self] at ha
          cases ha
        · rw [Function.update_of_ne hat] at ha
          exact absurd ha (hquiet a)
      · intro a ha
        exact absurd ha (Set.notMem_empty a)
      · intro e _ user _ _ he
        exact absurd he (Set.notMem_empty _)
      · intro a ha
        exact absurd ha (Set.notMem_empty a)

theorem After.move (hsetup : ResetSetup env w requests t x newPassword salt u old)
    (hs : Sessions env requests t x u φ c) {N : Set ι} (h : After env requests t u old N φ c)
    (hm : Move env (requests i) (φ i) cmd ((c.threads i).locals, c.world) φ') :
    ∃ M, After env requests t u old M (Function.update φ i φ') (c.issue (machine env) i cmd k) := by
  have hi : i ≠ t := by
    rintro rfl
    rw [h.phase] at hm
    cases hm
  have hphase : Function.update φ i φ' t = .closed u := by
    rw [Function.update_of_ne hi.symm, h.phase]
  have hrows : ∀ row ∈ (c.issue (machine env) i cmd k).world.users, row.id = u →
      row.passwordHash ≠ old := by
    rw [users_issue hs hi]
    exact h.rows
  have hlive : ∀ j, (c.issue (machine env) i cmd k).world.LiveToken u j → DrawnIn requests N j := by
    intro j hl
    rw [world_issue] at hl
    rcases hm.live_before hl with hl | ⟨hissuing, -, d, hd, hj⟩
    · exact h.live j hl
    · exact ⟨i, h.bound i (hissuing ▸ .issuing), d, hd, hj⟩
  have hin : ∀ a, a ≠ i → (Function.update φ i φ') a = φ a := fun a ha => Function.update_of_ne ha ..
  have hkeep : i ∈ N → (φ'.BoundFor u ∨ φ' = .issued u) ∧
      readBy env cmd ((c.threads i).locals, c.world) = none := fun hiN =>
    hm.bound_or_issued (h.members i hiN)
  by_cases hb : φ'.BoundFor u ∧ i ∉ N
  · -- the thread passes its check for `u`, by a row or by a key it finds after the commit
    obtain ⟨hb, hiN⟩ := hb
    refine ⟨insert i N, hphase, hrows, fun j hl => (hlive j hl).mono (Set.subset_insert ..), ?_, ?_,
      ?_, ?_⟩
    · intro a ha
      by_cases hai : a = i
      · exact .inl hai
      · exact .inr (h.bound a (hin a hai ▸ ha))
    · rintro a (rfl | ha)
      · rw [Function.update_self]
        exact .inl hb
      · have hai : a ≠ i := fun he => hiN (he ▸ ha)
        rw [hin a hai]
        exact h.members a ha
    · intro e he user hread hlogin hthread
      rcases List.mem_cons.mp he with rfl | he
      · have hread' : readBy env cmd ((c.threads i).locals, c.world) = some user := by
          rw [← hread]
          exact (rowRead_event env i cmd _).symm
        rcases hm.bound_before hb with hbefore | ⟨-, _, _, _, user', -, -, hmem, hid, hr⟩ | ⟨p, hp, -⟩
        · exact absurd (h.bound i hbefore) hiN
        · obtain rfl := Option.some.inj (hr.symm.trans hread')
          rw [hs.locals i hi] at hmem
          exact h.rows user' (by simpa [visibleRows] using hmem) hid
        · rw [hp] at hm
          cases hm <;> cases hread'
      · rcases hthread with hthread | hthread
        · have hφ := hs.reads e he user hread hlogin
          rw [hthread] at hφ
          rcases hm.bound_before hb with hbefore | ⟨hidle, -⟩ | ⟨p, hp, -⟩
          · exact absurd (h.bound i hbefore) hiN
          · rw [hidle] at hφ
            rcases hφ with hφ | hφ <;> cases hφ
          · rw [hp] at hφ
            rcases hφ with hφ | hφ <;> cases hφ
        · exact h.reads e he user hread hlogin hthread
    · rintro a (rfl | ha) T d p hreq hdec
      · rcases hm.bound_before hb with hbefore | ⟨-, _, _, _, _, hlogin, -⟩ | ⟨q, hq, hl, -⟩
        · exact absurd (h.bound a hbefore) hiN
        · rw [hreq] at hlogin
          cases hlogin
        · have hcarried := hs.carried a T d q hreq (by rw [hq]; rfl)
          obtain rfl := Option.some.inj (hdec.symm.trans hcarried)
          exact (h.live p.jti hl).mono (Set.subset_insert ..)
      · exact (h.refreshed a ha T d p hreq hdec).mono (Set.subset_insert ..)
  · have hiN : φ'.BoundFor u → i ∈ N := fun hφ' => by
      by_contra hne
      exact hb ⟨hφ', hne⟩
    refine ⟨N, hphase, hrows, hlive, ?_, ?_, ?_, h.refreshed⟩
    · intro a ha
      by_cases hai : a = i
      · subst hai
        rw [Function.update_self] at ha
        exact hiN ha
      · exact h.bound a (hin a hai ▸ ha)
    · intro a ha
      by_cases hai : a = i
      · subst hai
        rw [Function.update_self]
        exact (hkeep ha).1
      · rw [hin a hai]
        exact h.members a ha
    · intro e he user hread hlogin hthread
      rcases List.mem_cons.mp he with rfl | he
      · have hread' : readBy env cmd ((c.threads i).locals, c.world) = some user := by
          rw [← hread]
          exact (rowRead_event env i cmd _).symm
        rw [(hkeep hthread).2] at hread'
        cases hread'
      · exact h.reads e he user hread hlogin hthread

theorem Stage.drift (h : Stage env requests t newPassword salt u old φ c) (n : Nat) :
    Stage env requests t newPassword salt u old φ (c.step (machine env) (.drift n)) := by
  rcases h with h | h | ⟨N, h⟩
  · exact .inl ⟨h.phase, fun v j hl => h.listed v j (World.LiveToken.of_later hl), h.rows,
      h.uncommitted⟩
  · exact .inr (.inl ⟨h.phase.mono (fun j hl => World.LiveToken.of_later hl) (fun _ ha => ha),
      h.pending, h.rows, h.window⟩)
  · exact .inr (.inr ⟨N, h.phase, h.rows, fun j hl => h.live j (World.LiveToken.of_later hl),
      h.bound, h.members, h.reads, h.refreshed⟩)

theorem Stage.move (hsetup : ResetSetup env w requests t x newPassword salt u old)
    (hobey : AllObey (machine env) (fun i => Move env (requests i)) (fun i => Final env (requests i))
      φ c)
    (hs : Sessions env requests t x u φ c) (h : Stage env requests t newPassword salt u old φ c)
    (hm : Move env (requests i) (φ i) cmd ((c.threads i).locals, c.world) φ')
    (hmeets : Undisturbed env t u c (.step i)) :
    Stage env requests t newPassword salt u old (Function.update φ i φ')
      (c.issue (machine env) i cmd k) := by
  rcases h with h | h | ⟨N, h⟩
  · by_cases hi : i = t
    · subst hi
      exact (h.move_reset hsetup hs hm).imp id .inl
    · exact .inl (h.move_other hs hi hm)
  · have hquiet : ∀ a, ¬ (φ a).BoundFor u := fun a ha =>
      hmeets h.window a (willRecord_of_boundFor hobey ha)
    by_cases hi : i = t
    · subst hi
      exact .inr ((h.move_reset hsetup hquiet hm).imp id fun h => ⟨∅, h⟩)
    · exact .inr (.inl (h.move_other hs hquiet hi hm))
  · exact .inr (.inr (h.move hsetup hs hm))

end Stages

/-- A reset of the password of `u` beside any logins and refreshes, in every order of
their commands: once it has returned, every refresh token that descends from a login
checked against the old hash is refused, provided that between its reading of the
index and its commit no login or refresh for `u` stands between its check and the
recording of its token. -/
theorem reset_ends_old_sessions {ι : Type} [DecidableEq ι] (env : Env) (w : World)
    (requests : ι → Request) (t : ι) (x newPassword salt : String) (u : UUID) (old : String)
    (hsetup : ResetSetup env w requests t x newPassword salt u old) (schedule : List (Act ι Nat))
    (hmeets : (beside env w requests).Along (machine env) (Undisturbed env t u) schedule) :
    let c := (beside env w requests).run (machine env) schedule
    ∀ r, c.outcome t = some (.ok r) → ∀ T, OldToken env w requests u old c T →
      ∀ d, serve env c.world (.refreshAccessToken T d) =
        (.error (.invalidTokenError refreshTokenMessage), c.world) := by
  intro c r hr T hT d
  obtain ⟨φ, hobey, ⟨hs, hstage⟩, -⟩ := run_invariant
    (J := fun φ c => Sessions env requests t x u φ c ∧
      Stage env requests t newPassword salt u old φ c)
    (fun φ c n _ hJ _ => ⟨hJ.1.drift n, hJ.2.drift n⟩)
    (fun φ c i cmd k φ' hobey hJ _ hm hmeets =>
      ⟨hJ.1.move hsetup hm, hJ.2.move hsetup hobey hJ.1 hm hmeets⟩)
    (beside_obeys env w requests)
    ⟨.start hsetup, .inl ⟨.idle, fun v j hl => .inl (hsetup.indexed v j hl), hsetup.rows,
      fun e he => by cases he⟩⟩ hmeets
  obtain ⟨N, hafter⟩ := hstage.returned hsetup (hobey.final hr)
  obtain ⟨p, hdec, hsub, hnot⟩ := hT.not_drawn hsetup hobey hs hafter
  have hrefused : c.world.acceptedClaims env T = none := by
    rw [Option.eq_none_iff_forall_ne_some]
    intro q hq
    obtain ⟨hclaims, htext⟩ := (acceptedClaims_eq_some_iff _ _).mp hq
    obtain rfl := Option.some.inj (hdec.symm.trans (issued_of_refreshClaims hclaims).2.1)
    exact hnot (hafter.live p.jti (htext.trans (congrArg some hsub)))
  rw [serve_refreshAccessToken, hrefused]

/-! ### A login beside a reset -/

private theorem loginBesideReset_setup : ResetSetup plainEnv adaResetting loginBesideReset 1 "x"
    "battery staple" "s1" ada.id ada.passwordHash where
  reset := rfl
  others i hi := by
    match i with
    | 0 => trivial
    | 1 => exact absurd rfl hi
  token := by decide
  rows row hrow _ := by
    obtain rfl := List.mem_singleton.mp hrow
    rfl
  changes := by decide
  indexed := adaResetting_indexComplete
  fresh := loginBesideReset_fresh

private theorem not_willRecord_of_outcome {ι : Type} {env : Env} {u : UUID} {c : Threads ι} {i : ι}
    (h : (c.outcome i).isSome = true) : ¬ WillRecord env u c i := by
  intro hw
  unfold Config.outcome at h
  unfold WillRecord at hw
  cases hp : (c.threads i).prog with
  | done r =>
    rw [hp] at hw
    exact hw
  | call cmd k =>
    rw [hp] at h
    cases h

set_option maxRecDepth 2000 in
/-- The login ends before the reset begins: its refresh token is refused afterwards. -/
theorem reset_ends_old_sessions_serial :
    let c := (beside plainEnv adaResetting loginBesideReset).run (machine plainEnv)
      ((List.replicate 9 (.step 0) ++ List.replicate 5 (.step 1)) ++ List.replicate 3 (.step 1))
    ∀ T, OldToken plainEnv adaResetting loginBesideReset ada.id ada.passwordHash c T →
      serve plainEnv c.world (.refreshAccessToken T (plainDraws .two)) =
        (.error (.invalidTokenError refreshTokenMessage), c.world) := by
  intro c T hT
  have hbefore : (beside plainEnv adaResetting loginBesideReset).Along (machine plainEnv)
      (fun c _ => ¬ InWindow 1 c) (List.replicate 9 (.step 0) ++ List.replicate 5 (.step 1)) := by
    decide +kernel
  have hlast : ((beside plainEnv adaResetting loginBesideReset).run (machine plainEnv)
      (List.replicate 9 (.step 0) ++ List.replicate 5 (.step 1))).Along (machine plainEnv)
      (Undisturbed plainEnv 1 ada.id) (List.replicate 3 (.step 1)) := by
    -- the login has ended, and the reset records no token in its last three commands
    refine ⟨fun _ i => ?_, fun _ i => ?_, fun _ i => ?_, trivial⟩
    · match i with
      | 0 => exact not_willRecord_of_outcome (by decide)
      | 1 =>
        rintro (⟨j, hj⟩ | h)
        · cases hj
        rcases h ([], adaResetting) with ⟨j, hj⟩ | h
        · cases hj
        rcases h ([], adaResetting) with ⟨j, hj⟩ | h
        · cases hj
        exact h ([], adaResetting)
    · match i with
      | 0 => exact not_willRecord_of_outcome (by decide)
      | 1 =>
        rintro (⟨j, hj⟩ | h)
        · cases hj
        rcases h ([], adaResetting) with ⟨j, hj⟩ | h
        · cases hj
        exact h ([], adaResetting)
    · match i with
      | 0 => exact not_willRecord_of_outcome (by decide)
      | 1 =>
        rintro (⟨j, hj⟩ | h)
        · cases hj
        exact h ([], adaResetting)
  have hmeets := Config.along_append.mpr
    ⟨hbefore.mono fun c a hw (hin : InWindow 1 c) => absurd hin hw, hlast⟩
  exact reset_ends_old_sessions plainEnv adaResetting loginBesideReset 1 "x" "battery staple" "s1"
    ada.id ada.passwordHash loginBesideReset_setup _ hmeets .none (by decide) T hT (plainDraws .two)

/-- The login reads the row and records its token after the reset has read the index
and before it commits: the session opened with the old password goes on. -/
theorem reset_spares_session :
    ResetSetup plainEnv adaResetting loginBesideReset 1 "x" "battery staple" "s1" ada.id
      ada.passwordHash ∧
    let c := (beside plainEnv adaResetting loginBesideReset).run (machine plainEnv)
      (List.replicate 5 (.step 1) ++ List.replicate 9 (.step 0) ++ List.replicate 2 (.step 1))
    let T := plainEnv.encode (adaClaims .one)
    c.outcome 1 = some (.ok .none) ∧
      OldToken plainEnv adaResetting loginBesideReset ada.id ada.passwordHash c T ∧
      ∃ a R, (serve plainEnv c.world (.refreshAccessToken T (plainDraws .two))).1 =
        .ok (.tokenPair a R) := by
  refine ⟨loginBesideReset_setup, ?_⟩
  intro c T
  refine ⟨by decide, ?_, ?_⟩
  · have hread : ∃ e ∈ c.log, e.thread = 0 ∧ rowRead e = some ada := by decide +kernel
    obtain ⟨e, he, hthread, hrow⟩ := hread
    exact .login (i := 0) (by simp [loginBesideReset, Request.isLogin]) he hthread hrow rfl rfl
      (a := plainEnv.encode ⟨ada.id.str, .access, 1000, 1900, (plainDraws .one).accessJti.str⟩) rfl
  · have hissued : T ∈ c.world.issued := List.mem_cons_of_mem _ (List.mem_cons_self ..)
    have haccepted := acceptedClaims_encode plainEnv hissued (by decide) rfl (by decide)
    rw [serve_refreshAccessToken, haccepted]
    exact ⟨_, _, rfl⟩

end TaskMgtApp.Auth
