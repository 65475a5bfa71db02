import TaskMgtApp.Auth.Accounts
import TaskMgtApp.Auth.Failures
import TaskMgtApp.Lib.Merge

/-!
# Changes to different columns of one account

`verify_email` and `reset_password` each load a copy of the row and assign one attribute
of it; the flush sends that column if the copy has another value in it. No other request
changes a row that is there. In every order of the commands, what the committed requests
have assigned is in the row, and every other column is as it was.
-/
namespace TaskMgtApp.Auth

open TaskMgtApp.Common
open TaskMgtApp.Lib TaskMgtApp.Lib.Program TaskMgtApp.Lib.Program.Prog
open TaskMgtApp.Lib.Interleaving
open TaskMgtApp.Lib.Rows (Keyed)
open TaskMgtApp.Lib.ExpiringStore (Store)

/-! ## The columns that requests assign -/

inductive UserAttr where
  | isEmailVerified (v : Bool)
  | passwordHash (h : String)
  deriving DecidableEq

def UserAttr.column : UserAttr → String
  | isEmailVerified _ => "is_email_verified"
  | passwordHash _ => "password_hash"

namespace User

/-- `setattr`. -/
def setattr (user : User) : UserAttr → User
  | .isEmailVerified v => { user with isEmailVerified := v }
  | .passwordHash h => { user with passwordHash := h }

/-- The row with another `updated_at`. -/
def touch (n : Nat) (user : User) : User := { user with updatedAt := n }

/-- The columns that no request assigns, but for `updated_at`. -/
def fixed (user : User) : UUID × String × String × Bool × Nat × Option Nat :=
  (user.id, user.email, user.fullName, user.isActive, user.createdAt, user.deletedAt)

end User

/-- What the request assigns to the row that it loads. -/
def Request.writes (env : Env) : Request → List UserAttr
  | .verifyEmail _ => [.isEmailVerified true]
  | .resetPassword _ newPassword salt => [.passwordHash (env.hash newPassword salt)]
  | _ => []

/-- The columns that the request changes of the row that it loads. -/
def Request.columns (env : Env) (r : Request) : List String := (r.writes env).map UserAttr.column

/-- The row that a read by the primary key returned. -/
def rowLoaded {ι : Type} (e : Lib.Interleaving.Event Cmd.Val Exc World ι) : Option User :=
  match e with
  | ⟨_, .getById _, .ok user, _⟩ => user
  | _ => none

/-- The request of thread `i` has loaded the row of the user `u`. -/
def Loaded {ι : Type} (u : UUID) (c : Threads ι) (i : ι) : Prop :=
  ∃ e ∈ c.log, e.thread = i ∧ ∃ user, rowLoaded e = some user ∧ user.id = u

/-- Of the requests that have loaded the row, no two change the same column. -/
def DisjointUpdates {ι : Type} (env : Env) (u : UUID) (requests : ι → Request)
    (c : Threads ι) : Prop :=
  ∀ i k, i ≠ k → Loaded u c i → Loaded u c k →
    ∀ column ∈ (requests i).columns env, column ∉ (requests k).columns env

section Columns
variable {user : User} {n : Nat}

theorem User.columns : Record.Columns User.setattr UserAttr.column where
  again user a := by cases a <;> rfl
  other user a b h := by
    cases user
    cases a <;> cases b <;> simp_all [User.setattr, UserAttr.column]

@[simp] theorem User.setattr_isEmailVerified {v : Bool} :
    user.setattr (.isEmailVerified v) = user ↔ user.isEmailVerified = v := by
  cases user
  simp [User.setattr, eq_comm]

@[simp] theorem User.setattr_passwordHash {h : String} :
    user.setattr (.passwordHash h) = user ↔ user.passwordHash = h := by
  cases user
  simp [User.setattr, eq_comm]

/-- `updated_at` is no column that a request assigns. -/
theorem User.alike_touch : Record.Alike User.setattr (user.touch n) user := by
  intro a
  cases a with
  | isEmailVerified v => rw [User.setattr_isEmailVerified, User.setattr_isEmailVerified]; rfl
  | passwordHash h => rw [User.setattr_passwordHash, User.setattr_passwordHash]; rfl

@[simp] theorem User.fixed_touch : (user.touch n).fixed = user.fixed := rfl

@[simp] theorem User.fixed_setattrs (fields : List UserAttr) :
    (fields.foldl User.setattr user).fixed = user.fixed := by
  induction fields generalizing user with
  | nil => rfl
  | cons a as ih =>
    rw [List.foldl_cons, ih]
    cases a <;> rfl

theorem User.touch_setattrs (fields : List UserAttr) :
    fields.foldl User.setattr (user.touch n) = (fields.foldl User.setattr user).touch n := by
  induction fields generalizing user with
  | nil => rfl
  | cons a as ih =>
    have ha : (user.touch n).setattr a = (user.setattr a).touch n := by cases a <;> rfl
    rw [List.foldl_cons, ha, ih, List.foldl_cons]

theorem writes_distinct {env : Env} (r : Request) :
    Record.Distinct UserAttr.column (r.writes env) := by
  cases r <;> first | exact List.pairwise_singleton _ _ | exact List.Pairwise.nil

end Columns

/-! ## What a session writes to a row -/

/-- The assignments of a write to the row of `u`: those of values that the copy lacks. -/
def UserWrite.fields (u : UUID) : UserWrite → List UserAttr
  | insert _ => []
  | emailVerified loaded =>
      if loaded.id = u then Record.changed User.setattr loaded [.isEmailVerified true] else []
  | passwordHash loaded h =>
      if loaded.id = u then Record.changed User.setattr loaded [.passwordHash h] else []

/-- The assignments to the row of `u` that the session has in store. -/
def Session.pending (l : Session) (u : UUID) : List UserAttr := l.flatMap (UserWrite.fields u)

/-- The session does not insert a row of the user. -/
def Session.Foreign (l : Session) (u : UUID) : Prop := ∀ row, .insert row ∈ l → row.id ≠ u

section Sessions
variable {u : UUID} {row : User} {users : List User} {l : Session} {x : UserWrite} {n : Nat}

theorem pending_append : Session.pending (l ++ [x]) u = l.pending u ++ x.fields u := by
  simp [Session.pending]

@[simp] theorem fields_emailVerified {loaded : User} :
    (UserWrite.emailVerified loaded).fields u =
      if loaded.id = u ∧ loaded.isEmailVerified = false then [.isEmailVerified true] else [] := by
  by_cases hid : loaded.id = u <;> cases hv : loaded.isEmailVerified <;>
    simp [UserWrite.fields, Record.changed, hid, hv]

@[simp] theorem fields_passwordHash {loaded : User} {h : String} :
    (UserWrite.passwordHash loaded h).fields u =
      if loaded.id = u ∧ loaded.passwordHash ≠ h then [.passwordHash h] else [] := by
  by_cases hid : loaded.id = u <;> by_cases hh : loaded.passwordHash = h <;>
    simp [UserWrite.fields, Record.changed, hid, hh]

/-- A row after a write has the assignments of the write made. -/
theorem applyRow_eq : ∃ k, x.applyRow n row =
    ((x.fields row.id).foldl User.setattr row).touch k := by
  have hsame : ∃ k, row = row.touch k := ⟨row.updatedAt, rfl⟩
  cases x with
  | insert new => exact hsame
  | emailVerified loaded =>
    rw [fields_emailVerified]
    simp only [UserWrite.applyRow, eq_comm (a := row.id)]
    split
    · exact ⟨n, rfl⟩
    · exact hsame
  | passwordHash loaded h =>
    rw [fields_passwordHash]
    simp only [UserWrite.applyRow, eq_comm (a := row.id)]
    split
    · exact ⟨n, rfl⟩
    · exact hsame

@[simp] theorem id_applyRow : (x.applyRow n row).id = row.id := by
  cases x with
  | insert new => rfl
  | emailVerified | passwordHash =>
    simp only [UserWrite.applyRow]
    split <;> rfl

/-- A row after one write that does not insert it. -/
theorem row_of_apply (hrow : row ∈ x.apply n users) (hx : x ≠ .insert row) :
    ∃ m ∈ users, m.id = row.id ∧ ∃ k, row = ((x.fields row.id).foldl User.setattr m).touch k := by
  cases x with
  | insert new =>
    rcases List.mem_append.mp hrow with hrow | hrow
    · exact ⟨row, hrow, rfl, row.updatedAt, rfl⟩
    · exact absurd (congrArg _ (List.mem_singleton.mp hrow).symm) hx
  | emailVerified | passwordHash =>
    obtain ⟨m, hm, rfl⟩ := List.mem_map.mp hrow
    rw [id_applyRow]
    exact ⟨m, hm, rfl, applyRow_eq⟩

/-- A row after a commit is one from before it with the assignments of the session made. -/
theorem row_of_commit (hrow : row ∈ l.foldl (UserWrite.apply n) users) (hid : row.id = u)
    (hl : l.Foreign u) :
    ∃ m ∈ users, m.id = u ∧ ∃ k, row = ((l.pending u).foldl User.setattr m).touch k := by
  induction l generalizing users with
  | nil => exact ⟨row, hrow, hid, row.updatedAt, rfl⟩
  | cons x xs ih =>
    obtain ⟨m', hm', rfl, k, hk⟩ := ih hrow fun new hnew => hl new (List.mem_cons_of_mem _ hnew)
    have hx : x ≠ .insert m' := by
      rintro rfl
      exact hl m' List.mem_cons_self rfl
    obtain ⟨m, hm, hmid, k', hk'⟩ := row_of_apply hm' hx
    refine ⟨m, hm, hmid, k, ?_⟩
    rw [hk, Session.pending, Session.pending, List.flatMap_cons, List.foldl_append]
    rw [hk', User.touch_setattrs, ← hk']
    rfl

/-- No commit takes a row away. -/
theorem exists_row_commit (hrow : row ∈ users) (l : Session) :
    ∃ m ∈ l.foldl (UserWrite.apply n) users, m.id = row.id := by
  induction l generalizing users row with
  | nil => exact ⟨row, hrow, rfl⟩
  | cons x xs ih =>
    cases x with
    | insert new => exact ih (List.mem_append_left _ hrow)
    | emailVerified | passwordHash =>
      obtain ⟨m, hm, hid⟩ := ih (List.mem_map_of_mem hrow)
      exact ⟨m, hm, hid.trans id_applyRow⟩

end Sessions

/-! ## The moves of a request -/

/-- How far a request has come with the row. -/
inductive UserPhase where
  /-- It has not loaded the row. -/
  | away
  | found (copy : User)
  /-- It has assigned its columns, of which it will send `sent`. -/
  | holding (sent : List UserAttr)
  | committed
  /-- It has ended its transaction without the row. -/
  | ended

namespace UserPhase

def sent : UserPhase → List UserAttr
  | holding sent => sent
  | _ => []

/-- What the request has committed. -/
def done (env : Env) (r : Request) : UserPhase → List UserAttr
  | committed => r.writes env
  | _ => []

def loaded : UserPhase → Prop
  | found _ | holding _ | committed => True
  | _ => False

/-- Before the end of the transaction. -/
def running : UserPhase → Prop
  | away | found _ | holding _ => True
  | _ => False

end UserPhase

/-- A command that does not load the row of `u`, nor assign to it, nor end the transaction. -/
def Cmd.spares (u : UUID) : Cmd → Prop
  | .getById id => id ≠ u
  | .assignEmailVerified loaded | .assignPasswordHash loaded _ => loaded.id ≠ u
  | .commit | .rollback | .respond _ => False
  | _ => True

/-- The row that the command, issued in this state, loads by its primary key. -/
def loadedBy (c : Cmd) (s : State) : Option User :=
  match c with
  | .getById id => (visibleRows s.1 s.2).find? fun user => user.deletedAt.isNone && user.id == id
  | _ => none

inductive UserMove (env : Env) (u : UUID) (r : Request) : UserPhase → Cmd → State → UserPhase → Prop
  | quiet {φ : UserPhase} {c : Cmd} {s : State} (hφ : φ.running) (hc : c.spares u) :
      UserMove env u r φ c s φ
  | missing {s : State} (hload : loadedBy (.getById u) s = none) :
      UserMove env u r .away (.getById u) s .away
  | find {copy : User} {s : State} (hload : loadedBy (.getById u) s = some copy) :
      UserMove env u r .away (.getById u) s (.found copy)
  | verify {copy : User} {s : State} (hr : r.writes env = [.isEmailVerified true]) :
      UserMove env u r (.found copy) (.assignEmailVerified copy) s
        (.holding (Record.changed User.setattr copy (r.writes env)))
  | reset {copy : User} {h : String} {s : State} (hr : r.writes env = [.passwordHash h]) :
      UserMove env u r (.found copy) (.assignPasswordHash copy h) s
        (.holding (Record.changed User.setattr copy (r.writes env)))
  | commit {sent : List UserAttr} {s : State} :
      UserMove env u r (.holding sent) .commit s .committed
  | commitAway {s : State} : UserMove env u r .away .commit s .ended
  | rollback {s : State} : UserMove env u r .away .rollback s .ended
  | respond {tokens : List String} {s : State} :
      UserMove env u r .ended (.respond tokens) s .ended

/-- A program ends well in a phase of `P`, and otherwise in the phase `φ₀`. -/
def EndsIn {α : Type} (P : UserPhase → Prop) (φ₀ : UserPhase) : UserPhase → Except Exc α → Prop
  | φ, .ok _ => P φ
  | φ, .error _ => φ = φ₀

/-- At the end of the body of a request. -/
def UserPhase.bodyEnd (φ : UserPhase) : Prop := φ = .away ∨ ∃ sent, φ = .holding sent

/-- At the end of a request that has ended well. -/
def UserPhase.good (φ : UserPhase) : Prop := φ = .committed ∨ φ = .ended

section Obeys
variable {env : Env} {u : UUID} {r : Request}

theorem Cmd.plain.spares {c : Cmd} (h : c.plain) : c.spares u := by
  cases c with
  | getById | assignEmailVerified | assignPasswordHash | commit | rollback | respond => exact h.elim
  | _ => trivial

/-- A body that has nothing to do with the row. -/
theorem merge_plain {α : Type} {p : AuthM α} (hp : p.Only Cmd.plain) :
    Obeys (exec env) (UserMove env u r) (EndsIn (· = .away) .away) .away p := by
  induction p with
  | done o => cases o <;> exact rfl
  | call c k ih => exact fun s => ⟨.away, .quiet trivial hp.1.spares, ih _ (hp.2 _)⟩

theorem merge_getDb {α : Type} {P Q : UserPhase → Prop} {body : AuthM α}
    (hbody : Obeys (exec env) (UserMove env u r) (EndsIn P .away) .away body)
    (hcommit : ∀ φ s, P φ → ∃ φ', UserMove env u r φ .commit s φ' ∧ Q φ') :
    Obeys (exec env) (UserMove env u r) (EndsIn Q .ended) .away (getDb body) := by
  unfold getDb
  refine Obeys.catch (F := EndsIn Q .away) ?_ (fun φ a h => h) ?_
  · exact hbody.bind (fun φ a hφ s => hcommit φ s hφ) fun φ e h => h
  · rintro φ e rfl s
    exact ⟨.ended, .rollback, rfl⟩

theorem merge_revokeAll (φ : UserPhase) (hφ : φ.running) (hfinal : φ.bodyEnd) (v : UUID) :
    Obeys (exec env) (UserMove env u r) (EndsIn UserPhase.bodyEnd .away) φ
      (revokeAllRefreshTokens v) := by
  simp only [revokeAllRefreshTokens, perform_bind, obeys_call]
  rintro ⟨l, w⟩
  refine ⟨φ, .quiet hφ trivial, ?_⟩
  simp only [exec, Store.smembers, done_ok_bind]
  by_cases hempty : w.redis.sets (userTokensKey v) = ∅
  · simp only [hempty, if_true, pure_eq, done_ok_bind, obeys_call]
    exact fun s => ⟨φ, .quiet hφ trivial, hfinal⟩
  · simp only [hempty, if_false, obeys_call]
    exact fun s => ⟨φ, .quiet hφ trivial, fun s => ⟨φ, .quiet hφ trivial, hfinal⟩⟩

/-- A link names a user; what follows runs with the row of that user. -/
theorem merge_redeem {key : String} {exc : Exc} {rest : User → AuthM Unit}
    (hrest : ∀ copy : User, copy.id = u →
      Obeys (exec env) (UserMove env u r) (EndsIn UserPhase.bodyEnd .away) (.found copy)
        (rest copy))
    (hother : ∀ copy : User, copy.id ≠ u →
      Obeys (exec env) (UserMove env u r) (EndsIn UserPhase.bodyEnd .away) .away (rest copy)) :
    Obeys (exec env) (UserMove env u r) (EndsIn UserPhase.bodyEnd .away) .away
      (do
        match ← redisGet key with
        | none => throw exc
        | some userId =>
          let id ← uuidOf userId
          match ← getById id with
          | none => throw exc
          | some user => rest user) := by
  simp only [perform_bind, obeys_call]
  rintro ⟨l, w⟩
  refine ⟨.away, .quiet trivial trivial, ?_⟩
  cases htext : (w.redis.get w.now key).map Value.str with
  | none =>
    simp only [exec, htext, done_ok_bind]
    exact rfl
  | some userId =>
    simp only [exec, htext, done_ok_bind, uuidOf]
    cases UUID.parse userId with
    | none => exact rfl
    | some id =>
      rintro ⟨l, w⟩
      cases hload : loadedBy (.getById id) (l, w) with
      | none =>
        refine ⟨.away, ?_, ?_⟩
        · by_cases hid : id = u
          · subst hid
            exact .missing hload
          · exact .quiet trivial hid
        · simp only [loadedBy] at hload
          simp only [exec, hload]
          exact rfl
      | some copy =>
        obtain rfl : copy.id = id := by
          have hfound := List.find?_some hload
          simp only [Bool.and_eq_true, beq_iff_eq] at hfound
          exact hfound.2
        by_cases hid : copy.id = u
        · refine ⟨.found copy, hid ▸ .find hload, ?_⟩
          simp only [loadedBy] at hload
          simp only [exec, hload]
          exact hrest copy hid
        · refine ⟨.away, .quiet trivial hid, ?_⟩
          simp only [loadedBy] at hload
          simp only [exec, hload]
          exact hother copy hid

/-- Every request keeps to its moves, whatever runs beside it. -/
theorem users_obey (env : Env) (u : UUID) (r : Request) :
    Obeys (exec env) (UserMove env u r) (EndsIn UserPhase.good .ended) .away (r.program env) := by
  have hplain : ∀ {α : Type} {body : AuthM α}, body.Only Cmd.plain →
      Obeys (exec env) (UserMove env u r) (EndsIn (· = .ended) .ended) .away (getDb body) := by
    intro α body hbody
    refine merge_getDb (merge_plain hbody) ?_
    rintro φ s rfl
    exact ⟨.ended, .commitAway, rfl⟩
  have hreturn : ∀ {α : Type} {body : AuthM α} {f : α → Reply}, body.Only Cmd.plain →
      Obeys (exec env) (UserMove env u r) (EndsIn UserPhase.good .ended) .away
        (getDb body >>= fun x => return f x) :=
    fun hbody => (hplain hbody).bind (fun φ a h => .inr h) fun φ e h => h
  have hpair : ∀ {body : AuthM (String × String)}, body.Only Cmd.plain →
      Obeys (exec env) (UserMove env u r) (EndsIn UserPhase.good .ended) .away
        (getDb body >>= respondPair) := by
    intro body hbody
    refine (hplain hbody).bind ?_ fun φ e h => h
    rintro φ pair rfl s
    exact ⟨.ended, .respond, .inr rfl⟩
  have hredeem : ∀ {body : AuthM Unit},
      Obeys (exec env) (UserMove env u r) (EndsIn UserPhase.bodyEnd .away) .away body →
      Obeys (exec env) (UserMove env u r) (EndsIn UserPhase.good .ended) .away
        (getDb body >>= fun _ => return Reply.none) := by
    intro body hbody
    refine (merge_getDb (Q := UserPhase.good) hbody ?_).bind (fun φ a h => h) fun φ e h => h
    rintro φ s (rfl | ⟨sent, rfl⟩)
    · exact ⟨.ended, .commitAway, .inr rfl⟩
    · exact ⟨.committed, .commit, .inl rfl⟩
  cases r with
  | register email password fullName d => exact hreturn (register_plain ..)
  | verifyEmail token =>
    refine hredeem (merge_redeem ?_ ?_)
    · intro copy hid s
      exact ⟨_, .verify rfl, fun s => ⟨_, .quiet trivial trivial, .inr ⟨_, rfl⟩⟩⟩
    · intro copy hid s
      exact ⟨.away, .quiet trivial hid, fun s => ⟨.away, .quiet trivial trivial, .inl rfl⟩⟩
  | login email password d => exact hpair (login_plain ..)
  | requestPasswordReset email token => exact hreturn (requestPasswordReset_plain ..)
  | resetPassword token newPassword salt =>
    refine hredeem (merge_redeem ?_ ?_)
    · intro copy hid s
      refine ⟨_, .reset rfl, fun s => ⟨_, .quiet trivial trivial, ?_⟩⟩
      exact merge_revokeAll (.holding _) trivial (.inr ⟨_, rfl⟩) copy.id
    · intro copy hid s
      refine ⟨.away, .quiet trivial hid, fun s => ⟨.away, .quiet trivial trivial, ?_⟩⟩
      exact merge_revokeAll .away trivial (.inl rfl) copy.id
  | refreshAccessToken T d => exact hpair (refreshAccessToken_plain ..)
  | logout T => exact hreturn (logout_plain ..)

end Obeys

/-! ## What holds at every moment -/

/-- What holds of the session of a request in the phase `φ`. -/
structure UserOk (env : Env) (base : User) (r : Request) (φ : UserPhase) (l : Session) : Prop where
  pending : l.pending base.id = φ.sent
  foreign : l.Foreign base.id
  copied : ∀ copy, φ = .found copy → copy.id = base.id ∧
    ∀ a ∈ r.writes env, copy.setattr a = copy ↔ base.setattr a = base
  sends : ∀ sent, φ = .holding sent →
    Record.Sends User.setattr UserAttr.column base (r.writes env) sent

/-- The row has what the committed requests have assigned, every copy of it is good enough
for the request that has loaded it, and every session holds what its request will send. -/
structure UsersMerging {ι : Type} (env : Env) (base : User) (requests : ι → Request)
    (φ : ι → UserPhase) (c : Threads ι) : Prop where
  present : ∃ row ∈ c.world.users, row.id = base.id
  merged : ∀ row ∈ c.world.users, row.id = base.id →
    Record.Merged User.setattr UserAttr.column base (fun i => (φ i).done env (requests i)) row ∧
      row.fixed = base.fixed
  sessions : ∀ i, UserOk env base (requests i) (φ i) (c.threads i).locals
  loads : ∀ i, Loaded base.id c i ↔ (φ i).loaded

section Moves
variable {env : Env} {base : User} {u : UUID} {r : Request} {φ φ' : UserPhase} {c : Cmd}
  {l : Session} {w : World} {s : State} {x : UserWrite}

theorem UserOk.append (h : UserOk env base r φ l) (hx : x.fields base.id = [])
    (hinsert : ∀ row, x = .insert row → row.id ≠ base.id) : UserOk env base r φ (l ++ [x]) where
  pending := by rw [pending_append, hx, List.append_nil, h.pending]
  foreign row hrow := by
    rcases List.mem_append.mp hrow with hrow | hrow
    · exact h.foreign row hrow
    · exact hinsert row (List.mem_singleton.mp hrow).symm
  copied := h.copied
  sends := h.sends

/-- The request has assigned its columns to its copy. -/
theorem UserOk.assign {copy : User} (h : UserOk env base r (.found copy) l)
    (hx : x.fields base.id = Record.changed User.setattr copy (r.writes env))
    (hinsert : ∀ row, x ≠ .insert row) :
    UserOk env base r (.holding (Record.changed User.setattr copy (r.writes env))) (l ++ [x]) where
  pending := by
    rw [pending_append, h.pending, hx]
    rfl
  foreign row hrow := by
    rcases List.mem_append.mp hrow with hrow | hrow
    · exact h.foreign row hrow
    · exact absurd (List.mem_singleton.mp hrow).symm (hinsert row)
  copied := by simp
  sends := by
    rintro _ ⟨rfl⟩
    exact .changed (writes_distinct r) (h.copied copy rfl).2

/-- A command that spares the row leaves what the session has in store for it. -/
theorem UserOk.spare (h : UserOk env base r φ l) (hpresent : ∃ row ∈ w.users, row.id = base.id)
    (hc : c.spares base.id) : UserOk env base r φ (exec env c (l, w)).2.1 := by
  cases c with
  | add id email passwordHash fullName =>
    simp only [exec]
    split
    · rename_i haccepts
      refine h.append rfl ?_
      rintro _ ⟨rfl⟩
      -- the table has a row with that key
      obtain ⟨row, hrow, hid⟩ := hpresent
      exact hid ▸ (accepts_spec haccepts (List.mem_append_left _ hrow)).1.symm
    · exact h
  | assignEmailVerified loaded | assignPasswordHash loaded =>
    have hne : loaded.id ≠ base.id := hc
    exact h.append (by simp [hne]) (by simp)
  | commit | rollback | respond => exact absurd hc id
  | incr k =>
    simp only [exec]
    split <;> exact h
  | decodeToken T => rwa [exec_decodeToken]
  | _ => exact h

theorem rowLoaded_event {ι : Type} (env : Env) (i : ι) (cmd : Cmd) (s : State) :
    rowLoaded ⟨i, cmd, (exec env cmd s).1, s.2⟩ = loadedBy cmd s := by
  obtain ⟨l, w⟩ := s
  cases cmd <;> rfl

theorem Cmd.spares.loadedBy (hc : c.spares u) {user : User} (h : loadedBy c s = some user) :
    user.id ≠ u := by
  cases c with
  | getById id =>
    have hfound := List.find?_some h
    simp only [Bool.and_eq_true, beq_iff_eq] at hfound
    exact hfound.2 ▸ hc
  | _ => cases h

/-- A request has loaded the row before a command or with it. -/
theorem UserMove.loads (hm : UserMove env u r φ c s φ') :
    φ'.loaded ↔ φ.loaded ∨ ∃ user, loadedBy c s = some user ∧ user.id = u := by
  have hnone : ∀ {ψ ψ' : UserPhase}, (∀ user, loadedBy c s = some user → user.id ≠ u) →
      (ψ'.loaded ↔ ψ.loaded) →
      (ψ'.loaded ↔ ψ.loaded ∨ ∃ user, loadedBy c s = some user ∧ user.id = u) := by
    intro ψ ψ' hload hiff
    rw [hiff, or_iff_left]
    rintro ⟨user, huser, hid⟩
    exact hload user huser hid
  cases hm with
  | quiet hφ hc => exact hnone (fun user => hc.loadedBy) Iff.rfl
  | missing hload => exact hnone (by simp [hload]) Iff.rfl
  | @find copy _ hload =>
    have hfound := List.find?_some hload
    simp only [Bool.and_eq_true, beq_iff_eq] at hfound
    exact ⟨fun _ => .inr ⟨copy, hload, hfound.2⟩, fun _ => trivial⟩
  | _ => exact hnone (by simp [loadedBy]) Iff.rfl

theorem UserMove.running (hm : UserMove env u r φ c s φ') (hc : c ≠ .commit) :
    φ.done env r = [] ∧ φ'.done env r = [] := by
  cases hm with
  | quiet hφ =>
    cases φ with
    | committed => exact absurd hφ id
    | _ => exact ⟨rfl, rfl⟩
  | commit | commitAway => exact absurd rfl hc
  | _ => exact ⟨rfl, rfl⟩

/-- A command that is not a commit leaves in the session what the phase says. -/
theorem UserMove.session (hm : UserMove env base.id r φ c (l, w) φ') (hc : c ≠ .commit)
    (h : UserOk env base r φ l) (hpresent : ∃ row ∈ w.users, row.id = base.id)
    (hcopy : φ = .away → φ'.loaded → ∀ row ∈ w.users, row.id = base.id →
      ∀ a ∈ r.writes env, row.setattr a = row ↔ base.setattr a = base) :
    UserOk env base r φ' (exec env c (l, w)).2.1 := by
  cases hm with
  | quiet hφ hspares => exact h.spare hpresent hspares
  | missing hload => exact h
  | @find copy _ hload =>
    have hfound := List.find?_some hload
    simp only [Bool.and_eq_true, beq_iff_eq] at hfound
    refine ⟨h.pending, h.foreign, ?_, by simp⟩
    rintro _ ⟨rfl⟩
    refine ⟨hfound.2, hcopy rfl trivial copy ?_ hfound.2⟩
    rcases List.mem_append.mp (List.mem_of_find?_eq_some hload) with hmem | hmem
    · exact hmem
    · obtain ⟨x, hx, hrow⟩ := List.mem_filterMap.mp hmem
      cases x with
      | insert row =>
        obtain rfl := Option.some.inj hrow
        exact absurd hfound.2 (h.foreign row hx)
      | _ => cases hrow
  | verify hr | reset hr =>
    refine h.assign ?_ (by simp)
    rw [UserWrite.fields, if_pos (h.copied _ rfl).1, hr]
  | commit | commitAway => exact absurd rfl hc
  | rollback => exact ⟨rfl, by simp [exec, Session.Foreign], by simp, by simp⟩
  | respond => exact ⟨h.pending, h.foreign, by simp, by simp⟩

end Moves

section Runs
variable {ι : Type} {env : Env} {base : User} {requests : ι → Request} {φ : ι → UserPhase}
  {c : Threads ι} {w : World}

theorem UsersMerging.start (hkeyed : Keyed User.id w.users) (hbase : base ∈ w.users) :
    UsersMerging env base requests (fun _ => .away) (beside env w requests) where
  present := ⟨base, hbase, rfl⟩
  merged row hrow hid := by
    obtain rfl := hkeyed.eq_of_key hrow hbase hid
    exact ⟨.start, rfl⟩
  sessions i := ⟨rfl, by simp [beside, Session.Foreign], by simp, by simp⟩
  loads i := ⟨fun ⟨e, he, _⟩ => absurd he List.not_mem_nil, False.elim⟩

/-- A request that has committed columns has loaded the row. -/
theorem UsersMerging.loaded_of_done (h : UsersMerging env base requests φ c) {k : ι} {b : UserAttr}
    (hb : b ∈ (φ k).done env (requests k)) :
    Loaded base.id c k ∧ b.column ∈ (requests k).columns env := by
  cases hφ : φ k with
  | committed =>
    rw [hφ] at hb
    exact ⟨(h.loads k).mpr (by rw [hφ]; trivial), List.mem_map_of_mem hb⟩
  | _ =>
    rw [hφ] at hb
    cases hb

variable [DecidableEq ι] {i j : ι} {cmd : Cmd} {k : Except Exc cmd.Val → AuthM Reply}
  {φ' : UserPhase}

theorem UsersMerging.drift (h : UsersMerging env base requests φ c) (n : Nat) :
    UsersMerging env base requests φ (c.step (machine env) (.drift n)) :=
  ⟨h.present, h.merged, h.sessions, h.loads⟩

theorem loaded_issue {u : UUID} : Loaded u (c.issue (machine env) i cmd k) j ↔
    Loaded u c j ∨ (j = i ∧ ∃ user,
      loadedBy cmd ((c.threads i).locals, c.world) = some user ∧ user.id = u) := by
  unfold Loaded
  rw [Config.log_issue]
  simp only [List.mem_cons, exists_eq_or_imp]
  rw [or_comm]
  refine or_congr Iff.rfl (and_congr eq_comm ?_)
  rw [← rowLoaded_event env i cmd ((c.threads i).locals, c.world)]
  rfl

/-- The requests have changed no column in common so far. -/
theorem DisjointUpdates.before {u : UUID}
    (h : DisjointUpdates env u requests (c.issue (machine env) i cmd k)) :
    DisjointUpdates env u requests c :=
  fun a b hab ha hb => h a b hab (loaded_issue.mpr (.inl ha)) (loaded_issue.mpr (.inl hb))

theorem UsersMerging.loads_issue (h : UsersMerging env base requests φ c)
    (hm : UserMove env base.id (requests i) (φ i) cmd ((c.threads i).locals, c.world) φ') (j : ι) :
    Loaded base.id (c.issue (machine env) i cmd k) j ↔ (Function.update φ i φ' j).loaded := by
  rw [loaded_issue, h.loads j]
  by_cases hj : j = i
  · subst hj
    rw [Function.update_self, hm.loads]
    simp
  · rw [Function.update_of_ne hj]
    simp [hj]

/-- What the others have committed is of other columns than those of a request with the row. -/
theorem UsersMerging.done_disjoint (h : UsersMerging env base requests φ c)
    (hdisjoint : DisjointUpdates env base.id requests (c.issue (machine env) i cmd k))
    (hi : Loaded base.id (c.issue (machine env) i cmd k) i)
    (hdone : (φ i).done env (requests i) = []) :
    ∀ n, ∀ b ∈ (φ n).done env (requests n), ∀ a ∈ (requests i).writes env, b.column ≠ a.column := by
  intro n b hb a ha heq
  have hne : n ≠ i := by
    rintro rfl
    rw [hdone] at hb
    cases hb
  obtain ⟨hloaded, hcolumn⟩ := h.loaded_of_done hb
  refine hdisjoint n i hne (loaded_issue.mpr (.inl hloaded)) hi _ hcolumn ?_
  rw [heq]
  exact List.mem_map_of_mem ha

theorem done_update : (fun j => (Function.update φ i φ' j).done env (requests j)) =
    Function.update (fun j => (φ j).done env (requests j)) i (φ'.done env (requests i)) :=
  funext fun j => Function.apply_update (fun j ψ => UserPhase.done env (requests j) ψ) φ i φ' j

/-- A command that is not a commit. -/
theorem UsersMerging.statement (h : UsersMerging env base requests φ c)
    (hdisjoint : DisjointUpdates env base.id requests (c.issue (machine env) i cmd k))
    (hm : UserMove env base.id (requests i) (φ i) cmd ((c.threads i).locals, c.world) φ')
    (hc : cmd ≠ .commit) :
    UsersMerging env base requests (Function.update φ i φ') (c.issue (machine env) i cmd k) := by
  have husers : (c.issue (machine env) i cmd k).world.users = c.world.users := exec_users (.inl hc)
  obtain ⟨hdone, hdone'⟩ := hm.running hc
  have hall : (fun j => (Function.update φ i φ' j).done env (requests j)) =
      fun j => (φ j).done env (requests j) := by
    rw [done_update, hdone', ← hdone]
    exact Function.update_eq_self i _
  refine ⟨husers ▸ h.present, ?_, ?_, h.loads_issue hm⟩
  · rw [husers, hall]
    exact h.merged
  · refine forall_issue (m := machine env) (P := fun j ψ l => UserOk env base (requests j) ψ l) ?_
      fun j _ => h.sessions j
    refine hm.session hc (h.sessions i) h.present ?_
    intro _ hloaded row hrow hid a ha
    have hi := (h.loads_issue (k := k) hm i).mpr (by rwa [Function.update_self])
    exact (h.merged row hrow hid).1.kept a fun n b hb =>
      h.done_disjoint hdisjoint hi hdone n b hb a ha

theorem UserMove.of_commit {u : UUID} {r : Request} {ψ ψ' : UserPhase} {s : State}
    (hm : UserMove env u r ψ .commit s ψ') :
    (∃ sent, ψ = .holding sent ∧ ψ' = .committed) ∨ (ψ = .away ∧ ψ' = .ended) := by
  generalize hcmd : Cmd.commit = cmd at hm
  cases hm with
  | quiet hφ hc =>
    subst hcmd
    exact absurd hc id
  | commit => exact .inl ⟨_, rfl, rfl⟩
  | commitAway => exact .inr ⟨rfl, rfl⟩
  | _ => cases hcmd

/-- A commit. -/
theorem UsersMerging.commit (h : UsersMerging env base requests φ c)
    {k : Except Exc Unit → AuthM Reply}
    (hdisjoint : DisjointUpdates env base.id requests (c.issue (machine env) i .commit k))
    (hm : UserMove env base.id (requests i) (φ i) .commit ((c.threads i).locals, c.world) φ') :
    UsersMerging env base requests (Function.update φ i φ')
      (c.issue (machine env) i .commit k) := by
  have husers : (c.issue (machine env) i .commit k).world.users =
      (c.threads i).locals.foldl (UserWrite.apply c.world.now) c.world.users := rfl
  have hok := h.sessions i
  -- the request sends its columns, or has none
  have hsends : Record.Sends User.setattr UserAttr.column base (φ'.done env (requests i))
        (φ i).sent ∧
      (φ i).done env (requests i) = [] ∧ φ'.sent = [] ∧ (∀ copy, φ' ≠ .found copy) ∧
      ∀ sent, φ' ≠ .holding sent := by
    rcases hm.of_commit with ⟨sent, hφ, rfl⟩ | ⟨hφ, rfl⟩
    · rw [hφ]
      exact ⟨hok.sends sent hφ, rfl, rfl, by simp, by simp⟩
    · rw [hφ]
      exact ⟨.nil, rfl, rfl, by simp, by simp⟩
  obtain ⟨hsends, hdone, hsent, hfound, hholding⟩ := hsends
  refine ⟨?_, ?_, ?_, h.loads_issue hm⟩
  · obtain ⟨m, hm, hmid⟩ := h.present
    obtain ⟨row, hrow, hid⟩ := exists_row_commit (n := c.world.now) hm (c.threads i).locals
    exact ⟨row, husers ▸ hrow, hid.trans hmid⟩
  · rw [husers, done_update]
    intro row hrow hid
    obtain ⟨m, hmem, hmid, n, rfl⟩ := row_of_commit hrow hid hok.foreign
    obtain ⟨hmerged, hfixed⟩ := h.merged m hmem hmid
    rw [hok.pending]
    refine ⟨(hmerged.send User.columns hdone hsends ?_).congr User.alike_touch, ?_⟩
    · intro j b hb a ha
      cases hφ' : φ' with
      | committed =>
        rw [hφ'] at ha
        refine h.done_disjoint hdisjoint ((h.loads_issue hm i).mpr ?_) hdone j b hb a ha
        rw [Function.update_self, hφ']
        trivial
      | _ =>
        rw [hφ'] at ha
        cases ha
    · rw [User.fixed_touch, User.fixed_setattrs, hfixed]
  · refine forall_issue (m := machine env) (P := fun j ψ l => UserOk env base (requests j) ψ l) ?_
      fun j _ => h.sessions j
    refine ⟨hsent.symm, by simp [machine, exec, Session.Foreign], ?_, ?_⟩
    · exact fun copy hcopy => absurd hcopy (hfound copy)
    · exact fun sent hcopy => absurd hcopy (hholding sent)

/-- Every command keeps what holds of the row. -/
theorem UsersMerging.move (h : UsersMerging env base requests φ c)
    (hdisjoint : DisjointUpdates env base.id requests (c.issue (machine env) i cmd k))
    (hm : UserMove env base.id (requests i) (φ i) cmd ((c.threads i).locals, c.world) φ') :
    UsersMerging env base requests (Function.update φ i φ') (c.issue (machine env) i cmd k) := by
  by_cases hc : cmd = .commit
  · subst hc
    exact h.commit hdisjoint hm
  · exact h.statement hdisjoint hm hc

end Runs

/-! ## The row after a run -/

/-- The row has what the committed requests have assigned, and is otherwise as before. -/
structure UserMerges {ι : Type} (env : Env) (base : User) (requests : ι → Request) (c : Threads ι)
    (row : User) : Prop where
  fixed : row.fixed = base.fixed
  written : ∀ i reply, c.outcome i = some (.ok reply) → Loaded base.id c i →
    ∀ a ∈ (requests i).writes env, row.setattr a = row
  kept : ∀ a : UserAttr, (∀ i reply, c.outcome i = some (.ok reply) → Loaded base.id c i →
    a.column ∉ (requests i).columns env) → (row.setattr a = row ↔ base.setattr a = base)

/-- A request that has committed has ended well. -/
theorem outcome_of_saved {ι : Type} {env : Env} {u : UUID} {requests : ι → Request}
    {φ : ι → UserPhase} {c : Threads ι}
    (hobey : AllObey (machine env) (fun i => UserMove env u (requests i))
      (fun _ => EndsIn UserPhase.good .ended) φ c) {i : ι} (hφ : φ i = .committed) :
    ∃ reply, c.outcome i = some (.ok reply) := by
  have hstuck : ∀ cmd s φ', ¬ UserMove env u (requests i) (φ i) cmd s φ' := by
    intro cmd s φ' hm
    rw [hφ] at hm
    cases hm with
    | quiet hrunning => exact hrunning
  obtain ⟨o, ho⟩ := hobey.exists_outcome hstuck
  have hfinal := hobey.final ho
  rw [hφ] at hfinal
  cases o with
  | ok reply => exact ⟨reply, ho⟩
  | error e => cases hfinal

/-- Requests that change different columns of an account do not lose each other's changes,
in whatever order their commands come. -/
theorem users_merge {ι : Type} [DecidableEq ι] (env : Env) (w : World)
    (hkeyed : Keyed User.id w.users) (requests : ι → Request) (base : User) (hbase : base ∈ w.users)
    (schedule : List (Act ι Nat)) :
    let c := (beside env w requests).run (machine env) schedule
    DisjointUpdates env base.id requests c →
    (∃ row ∈ c.world.users, row.id = base.id) ∧
      ∀ row ∈ c.world.users, row.id = base.id → UserMerges env base requests c row := by
  intro c hdisjoint
  have hobeys : AllObey (machine env) (fun i => UserMove env base.id (requests i))
      (fun _ => EndsIn UserPhase.good .ended) (fun _ => .away) (beside env w requests) :=
    fun i => users_obey env base.id (requests i)
  -- what a prefix of the run has loaded the whole run has loaded
  obtain ⟨φ, hobey, h⟩ := run_invariant_forall
    (J := fun φ c => DisjointUpdates env base.id requests c → UsersMerging env base requests φ c)
    (fun φ c n _ h hd => (h hd).drift n)
    (fun φ c i cmd k φ' _ h hp hm hd => (h hd.before).move hd hm)
    hobeys (fun _ => .start hkeyed hbase) schedule
  replace h := h hdisjoint
  refine ⟨h.present, fun row hrow hid => ?_⟩
  obtain ⟨hmerged, hfixed⟩ := h.merged row hrow hid
  refine ⟨hfixed, fun i reply houtcome hloaded a ha => ?_, fun a ha => ?_⟩
  · have hfinal := hobey.final houtcome
    have hphase := (h.loads i).mp hloaded
    rcases hfinal with hφ | hφ
    · exact hmerged.written i a (by rwa [hφ])
    · rw [hφ] at hphase
      exact absurd hphase id
  · refine hmerged.kept a fun k b hb heq => ?_
    obtain ⟨hloaded, hcolumn⟩ := h.loaded_of_done hb
    have hφ : φ k = .committed := by
      cases hφ : φ k with
      | committed => rfl
      | _ =>
        rw [hφ] at hb
        cases hb
    obtain ⟨reply, hreply⟩ := outcome_of_saved hobey hφ
    exact ha k reply hreply hloaded (heq ▸ hcolumn)

end TaskMgtApp.Auth
