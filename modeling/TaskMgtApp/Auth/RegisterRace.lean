import TaskMgtApp.Auth.ResetTokenRace
import TaskMgtApp.Auth.Http

/-!
# Registrations of one address side by side

Two things keep an address from being registered twice: `register` looks for an
account before it inserts one, and `ix_users_email_active` makes an insert wait for
a row with the same email that another session has not committed, and refuses it
once there is a committed one. The index alone sees to it that one request
succeeds. The refusal of the index is no domain error: a request that is too late
for the insert and was not too late for the lookup ends with a 500.
-/
namespace TaskMgtApp.Auth

open TaskMgtApp.Common
open TaskMgtApp.Lib.Program TaskMgtApp.Lib.Program.Prog
open TaskMgtApp.Lib.Interleaving
open TaskMgtApp.Lib.ExpiringStore (Store)

/-- A call of `register` for each thread. -/
def registrations {ι : Type} (email password fullName : ι → String) (d : ι → RegisterDraws)
    (i : ι) : Request :=
  .register (email i) (password i) (fullName i) (d i)

/-- The write makes an insert of the same email wait. -/
def UserWrite.blocks (write : UserWrite) (c : Cmd) : Bool :=
  match write, c with
  | .insert row, .add _ email _ _ => row.deletedAt.isNone && row.email == email
  | _, _ => false

/-- The thread is about to insert a row whose email another session has inserted and not
committed: the partial unique index makes it wait for the end of that session. -/
def AwaitsIndex {ι : Type} (c : Threads ι) : Act ι Nat → Prop
  | .drift _ => False
  | .step i => ∃ k, k ≠ i ∧ ∃ write ∈ (c.threads k).locals, (c.next i).any write.blocks = true

instance {ι : Type} [Fintype ι] [DecidableEq ι] (c : Threads ι) :
    (a : Act ι Nat) → Decidable (AwaitsIndex c a)
  | .drift _ => instDecidableFalse
  | .step i => inferInstanceAs (Decidable (∃ k, k ≠ i ∧ ∃ write ∈ (c.threads k).locals,
      (c.next i).any write.blocks = true))

/-- There is a committed active account with this email. -/
def World.Taken (w : World) (email : String) : Prop :=
  ∃ row ∈ w.users, row.deletedAt = none ∧ row.email = email

instance (w : World) (email : String) : Decidable (w.Taken email) :=
  inferInstanceAs (Decidable (∃ row ∈ w.users, _ ∧ _))

/-- The columns take what the request puts into them. -/
def Storable (email fullName : String) : Prop :=
  fits 320 email = true ∧ fits 255 fullName = true

instance (email fullName : String) : Decidable (Storable email fullName) :=
  inferInstanceAs (Decidable (_ ∧ _))

/-- A command of a registration after its lookup, up to its commit. -/
def Cmd.registers : Cmd → Bool
  | .add .. | .set .. | .commit => true
  | _ => false

/-- A lookup that finds no account for `e` is one of a request whose row can be stored,
and finds no other request between its lookup and its commit. -/
def RegistersAlone {ι : Type} (e : String) (fullName : ι → String) (c : Threads ι) :
    Act ι Nat → Prop
  | .drift _ => True
  | .step i => c.next i = some (.getByEmail e) → ¬ c.world.Taken e →
      Storable e (fullName i) ∧ ∀ k, (c.next k).any Cmd.registers = false

instance {ι : Type} [Fintype ι] (e : String) (fullName : ι → String) (c : Threads ι) :
    (a : Act ι Nat) → Decidable (RegistersAlone e fullName c a)
  | .drift _ => instDecidableTrue
  | .step i => inferInstanceAs (Decidable (c.next i = some (.getByEmail e) →
      ¬ c.world.Taken e → Storable e (fullName i) ∧ ∀ k, (c.next k).any Cmd.registers = false))

/-! ## The moves of a registration -/

/-- How far a call has come. -/
inductive Signup where
  | asking
  /-- The lookup has found an account. -/
  | refused
  /-- The lookup has found none. -/
  | vacant
  | inserted (row : User)
  /-- The verification key is set. -/
  | keyed (row : User)
  | committed (row : User)
  /-- The database has refused the insert. -/
  | failed

namespace Signup

/-- Between the lookup and the commit. -/
def contends : Signup → Prop
  | vacant | inserted _ | keyed _ => True
  | _ => False

/-- With a row inserted and not committed. -/
def holdsRow : Signup → Prop
  | inserted _ | keyed _ => True
  | _ => False

/-- Past a lookup that found no account. -/
def past : Signup → Prop
  | vacant | inserted _ | keyed _ | committed _ | failed => True
  | _ => False

end Signup

def registeredMessage : String := "An account with this email already exists."

/-- The moves of a registration of the normalized email `e`. -/
inductive SignupMove (env : Env) (e password fullName : String) (d : RegisterDraws) :
    Signup → Cmd → State → Signup → Prop
  | taken {l : Session} {w : World} {user : User}
      (hfind : (visibleRows l w).find? (fun u => u.deletedAt.isNone && u.email == env.lower e) =
        some user) : SignupMove env e password fullName d .asking (.getByEmail e) (l, w) .refused
  | vacant {l : Session} {w : World}
      (hfind : (visibleRows l w).find? (fun u => u.deletedAt.isNone && u.email == env.lower e) =
        none) : SignupMove env e password fullName d .asking (.getByEmail e) (l, w) .vacant
  | insert {l : Session} {w : World}
      (haccepts : World.accepts (visibleRows l w)
        (w.newUser d.userId e (env.hash password d.salt) fullName) = true) :
      SignupMove env e password fullName d .vacant
        (.add d.userId e (env.hash password d.salt) fullName) (l, w)
        (.inserted (w.newUser d.userId e (env.hash password d.salt) fullName))
  | reject {l : Session} {w : World}
      (haccepts : World.accepts (visibleRows l w)
        (w.newUser d.userId e (env.hash password d.salt) fullName) = false) :
      SignupMove env e password fullName d .vacant
        (.add d.userId e (env.hash password d.salt) fullName) (l, w) .failed
  | key {row : User} {s : State} : SignupMove env e password fullName d (.inserted row)
      (.set (emailVerifyKey d.token) row.id.str (env.settings.emailVerificationTtlHours * 3600)) s
      (.keyed row)
  | commit {row : User} {s : State} :
      SignupMove env e password fullName d (.keyed row) .commit s (.committed row)
  | rollbackRefused {s : State} : SignupMove env e password fullName d .refused .rollback s .refused
  | rollbackFailed {s : State} : SignupMove env e password fullName d .failed .rollback s .failed

/-- How a registration ends. -/
inductive SignupEnd (d : RegisterDraws) : Signup → Except Exc Reply → Prop
  | refused : SignupEnd d .refused (.error (.emailAlreadyRegisteredError registeredMessage))
  | failed : SignupEnd d .failed (.error .dbError)
  | committed {row : User} : SignupEnd d (.committed row) (.ok (.registered row d.token))

/-- How the body of a registration ends. -/
inductive SignupBodyEnd (d : RegisterDraws) : Signup → Except Exc (User × String) → Prop
  | refused : SignupBodyEnd d .refused (.error (.emailAlreadyRegisteredError registeredMessage))
  | failed : SignupBodyEnd d .failed (.error .dbError)
  | keyed {row : User} : SignupBodyEnd d (.keyed row) (.ok (row, d.token))

theorem register_signsUp (env : Env) (email password fullName : String) (d : RegisterDraws) :
    Obeys (exec env) (SignupMove env (env.lower email) password fullName d) (SignupBodyEnd d)
      .asking (register env email password fullName d) := by
  simp only [register, perform_bind, obeys_call]
  rintro ⟨l, w⟩
  cases hfind : (visibleRows l w).find? fun u =>
      u.deletedAt.isNone && u.email == env.lower (env.lower email) with
  | some user =>
    refine ⟨_, .taken hfind, ?_⟩
    simp only [exec, hfind, done_ok_bind, Option.isSome_some, if_true, throw_eq, obeys_done]
    exact .refused
  | none =>
    refine ⟨_, .vacant hfind, ?_⟩
    simp only [exec, hfind, done_ok_bind, Option.isSome_none, Bool.false_eq_true, if_false,
      obeys_call]
    rintro ⟨l, w⟩
    cases haccepts : World.accepts (visibleRows l w)
        (w.newUser d.userId (env.lower email) (env.hash password d.salt) fullName) with
    | false =>
      refine ⟨_, .reject haccepts, ?_⟩
      simp only [Bool.false_eq_true, if_false, done_error_bind, obeys_done]
      exact .failed
    | true =>
      refine ⟨_, .insert haccepts, ?_⟩
      simp only [exec, if_true, done_ok_bind, obeys_call]
      intro s
      exact ⟨_, .key, .keyed⟩

/-- Every registration keeps to its moves, whatever runs beside it. -/
theorem registrations_obey (env : Env) (email password fullName : String) (d : RegisterDraws) :
    Obeys (exec env) (SignupMove env (env.lower email) password fullName d) (SignupEnd d) .asking
      ((Request.register email password fullName d).program env) := by
  have hcaught : Obeys (exec env) (SignupMove env (env.lower email) password fullName d)
      (fun φ o => match o with
        | .ok (row, token) => φ = .committed row ∧ token = d.token
        | .error exc => SignupEnd d φ (.error exc)) .asking
      (getDb (register env email password fullName d)) := by
    unfold getDb
    apply Obeys.catch (F := fun φ o => match o with
      | .ok (row, token) => φ = .committed row ∧ token = d.token
      | .error exc => SignupBodyEnd d φ (.error exc))
    · apply (register_signsUp env email password fullName d).bind
      · rintro _ _ ⟨⟩ s
        exact ⟨_, .commit, rfl, rfl⟩
      · intro φ exc he
        exact he
    · intro φ a ha
      exact ha
    · rintro φ exc he s
      cases he with
      | refused => exact ⟨_, .rollbackRefused, .refused⟩
      | failed => exact ⟨_, .rollbackFailed, .failed⟩
  apply hcaught.bind
  · rintro _ ⟨row, token⟩ ⟨rfl, rfl⟩
    exact .committed
  · intro φ exc he
    exact he

/-! ## What the index sees to -/

/-- No active account has the address, and the draws are fresh. -/
structure Contest {ι : Type} (env : Env) (w : World) (e : String) (email : ι → String)
    (d : ι → RegisterDraws) : Prop where
  lower : ∀ s, env.lower (env.lower s) = env.lower s
  emails : ∀ i, env.lower (email i) = e
  vacant : ¬ w.Taken e
  ids : ∀ i, ∀ row ∈ w.users, row.id ≠ (d i).userId
  tokens : Function.Injective fun i => (d i).token
  unset : ∀ i, w.redis.look w.now (emailVerifyKey (d i).token) = none

section Runs
variable {ι : Type} {env : Env} {w : World} {e : String} {email password fullName : ι → String}
  {d : ι → RegisterDraws} {φ : ι → Signup} {c : Threads ι}

/-- While no active account has the address, the table takes every row that can be stored. -/
theorem accepts_iff_storable {w' : World} {id : UUID} {h n : String} (hvacant : ¬ w.Taken e)
    (hid : ∀ row ∈ w.users, row.id ≠ id) :
    World.accepts w.users (w'.newUser id e h n) = true ↔ Storable e n := by
  have hrows : (w.users.all fun row => row.id ≠ (w'.newUser id e h n).id &&
      !(row.deletedAt.isNone && row.email == (w'.newUser id e h n).email)) = true := by
    rw [List.all_eq_true]
    intro row hrow
    have hne : row.deletedAt = none → row.email ≠ e := fun hdel hemail =>
      hvacant ⟨row, hrow, hdel, hemail⟩
    cases hdel : row.deletedAt with
    | none => simp [World.newUser, hid row hrow, hne hdel]
    | some t => simp [World.newUser, hid row hrow]
  simp only [World.accepts, hrows, Bool.and_true, Bool.and_eq_true]
  exact Iff.rfl

/-- Once an active account has the address, it takes none. -/
theorem accepts_of_taken {w' : World} {id : UUID} {h n : String} (htaken : w.Taken e) :
    World.accepts w.users (w'.newUser id e h n) = false := by
  obtain ⟨row, hrow, hdel, hemail⟩ := htaken
  rw [Bool.eq_false_iff]
  intro haccepts
  simp only [World.accepts, Bool.and_eq_true, List.all_eq_true] at haccepts
  have hboth := haccepts.2 row hrow
  simp [World.newUser, hdel, hemail] at hboth

/-- What a lookup of the address finds. -/
theorem lookup_eq_none (hlower : env.lower e = e) {w' : World} :
    (visibleRows [] w').find? (fun u => u.deletedAt.isNone && u.email == env.lower e) = none ↔
      ¬ w'.Taken e := by
  simp [visibleRows, World.Taken, hlower, List.find?_eq_none]

/-- A call before the address is taken, with its database session. -/
inductive Contender (e fullName : String) : Signup → Session → Prop
  | asking : Contender e fullName .asking []
  | vacant : Contender e fullName .vacant []
  | inserted {row : User} (hemail : row.email = e) (hdel : row.deletedAt = none)
      (hs : Storable e fullName) : Contender e fullName (.inserted row) [.insert row]
  | keyed {row : User} (hemail : row.email = e) (hdel : row.deletedAt = none)
      (hs : Storable e fullName) : Contender e fullName (.keyed row) [.insert row]
  | failed (hs : ¬ Storable e fullName) : Contender e fullName .failed []

/-- Another call once the address is taken, with its database session. -/
inductive TooLate : Signup → Session → Prop
  | asking : TooLate .asking []
  | vacant : TooLate .vacant []
  | refused : TooLate .refused []
  | failed : TooLate .failed []

/-- Nobody has taken the address, and one call at most has inserted a row for it. -/
structure Undecided (w : World) (e : String) (fullName : ι → String) (d : ι → RegisterDraws)
    (φ : ι → Signup) (c : Threads ι) : Prop where
  users : c.world.users = w.users
  stage : ∀ i, Contender e (fullName i) (φ i) (c.threads i).locals
  sole : ∀ i k, (φ i).holdsRow → (φ k).holdsRow → i = k
  keys : ∀ i, (∀ row, φ i ≠ .keyed row) →
    c.world.redis.look c.world.now (emailVerifyKey (d i).token) = none

/-- The call `t` has taken the address. -/
structure WonBy (w : World) (e : String) (d : ι → RegisterDraws) (φ : ι → Signup)
    (c : Threads ι) (t : ι) : Prop where
  account : ∃ row, row.email = e ∧ row.deletedAt = none ∧ c.world.users = w.users ++ [row]
  winner : ∃ row, φ t = .committed row
  losers : ∀ i, i ≠ t → TooLate (φ i) (c.threads i).locals
  keys : ∀ i, i ≠ t → c.world.redis.look c.world.now (emailVerifyKey (d i).token) = none

theorem Undecided.start (hcontest : Contest env w e email d) (requests : ι → Request) :
    Undecided w e fullName d (fun _ => .asking) (beside env w requests) where
  users := rfl
  stage _ := .asking
  sole _ _ hi := absurd hi id
  keys i _ := hcontest.unset i

theorem Undecided.vacant (h : Undecided w e fullName d φ c) (hvacant : ¬ w.Taken e) :
    ¬ c.world.Taken e := by
  unfold World.Taken
  rw [h.users]
  exact hvacant

theorem WonBy.taken {t : ι} (h : WonBy w e d φ c t) : c.world.Taken e := by
  obtain ⟨row, hemail, hdel, husers⟩ := h.account
  exact ⟨row, by rw [husers]; simp, hdel, hemail⟩

/-- The key of a verification token is set by the call that drew the token alone. -/
theorem SignupMove.look {p n x : String} {draws : RegisterDraws} {ψ ψ' : Signup} {cmd : Cmd}
    {s : State} (hm : SignupMove env e p n draws ψ cmd s ψ')
    (hx : (∀ row, ψ' ≠ .keyed row) ∨ x ≠ draws.token) :
    (exec env cmd s).2.2.redis.look (exec env cmd s).2.2.now (emailVerifyKey x) =
      s.2.redis.look s.2.now (emailVerifyKey x) := by
  cases hm with
  | key =>
    rcases hx with hx | hx
    · exact absurd rfl (hx _)
    · rcases s with ⟨l, w'⟩
      simp [exec, hx]
  | insert haccepts | reject haccepts => simp only [exec, haccepts]; rfl
  | _ => rfl

/-- What a call does while nobody has taken the address. -/
theorem Contender.move {p n : String} {draws : RegisterDraws} {ψ ψ' : Signup} {cmd : Cmd}
    {l : Session} {w' : World} (he : Contender e n ψ l) (hlower : env.lower e = e)
    (hvacant : ¬ w'.Taken e) (hid : ∀ row ∈ w'.users, row.id ≠ draws.userId)
    (hm : SignupMove env e p n draws ψ cmd (l, w') ψ') :
    (Contender e n ψ' (exec env cmd (l, w')).2.1 ∧ cmd ≠ .commit ∧
      (ψ'.holdsRow → ψ.holdsRow ∨ ∃ id h, cmd = .add id e h n)) ∨
    (∃ row, ψ = .keyed row ∧ ψ' = .committed row ∧ cmd = .commit ∧ l = [.insert row] ∧
      row.email = e ∧ row.deletedAt = none) := by
  have hrows : visibleRows [] w' = w'.users := by simp [visibleRows]
  cases he with
  | asking =>
    left
    cases hm with
    | taken hfind =>
      rw [(lookup_eq_none hlower).mpr hvacant] at hfind
      cases hfind
    | vacant hfind => exact ⟨.vacant, by simp, fun hrow => absurd hrow id⟩
  | vacant =>
    left
    cases hm with
    | insert haccepts =>
      have hs : Storable e n := by
        rw [hrows] at haccepts
        exact (accepts_iff_storable hvacant hid).mp haccepts
      refine ⟨?_, by simp, fun _ => .inr ⟨_, _, rfl⟩⟩
      simp only [exec, haccepts, if_true]
      exact .inserted rfl rfl hs
    | reject haccepts =>
      have hs : ¬ Storable e n := by
        intro hs
        rw [hrows, (accepts_iff_storable hvacant hid).mpr hs] at haccepts
        cases haccepts
      refine ⟨?_, by simp, fun hrow => absurd hrow id⟩
      simp only [exec, haccepts, Bool.false_eq_true, if_false]
      exact .failed hs
  | inserted hemail hdel hs =>
    cases hm
    exact .inl ⟨.keyed hemail hdel hs, by simp, fun _ => .inl trivial⟩
  | keyed hemail hdel hs =>
    cases hm
    exact .inr ⟨_, rfl, rfl, rfl, rfl, hemail, hdel⟩
  | failed hs =>
    cases hm
    exact .inl ⟨.failed hs, by simp, fun hrow => absurd hrow id⟩

/-- What another call does once the address is taken. -/
theorem TooLate.move {p n : String} {draws : RegisterDraws} {ψ ψ' : Signup} {cmd : Cmd}
    {l : Session} {w' : World} (hl : TooLate ψ l) (hlower : env.lower e = e)
    (htaken : w'.Taken e) (hm : SignupMove env e p n draws ψ cmd (l, w') ψ') :
    TooLate ψ' (exec env cmd (l, w')).2.1 ∧ (∀ row, ψ' ≠ .keyed row) ∧
      (exec env cmd (l, w')).2.2 = w' := by
  have hrows : visibleRows [] w' = w'.users := by simp [visibleRows]
  cases hl with
  | asking =>
    cases hm with
    | taken hfind => exact ⟨.refused, by simp, rfl⟩
    | vacant hfind => exact absurd htaken ((lookup_eq_none hlower).mp hfind)
  | vacant =>
    cases hm with
    | insert haccepts =>
      rw [hrows, accepts_of_taken htaken] at haccepts
      cases haccepts
    | reject haccepts =>
      simp only [exec, haccepts, Bool.false_eq_true, if_false]
      exact ⟨.failed, by simp, trivial⟩
  | refused =>
    cases hm
    exact ⟨.refused, by simp, rfl⟩
  | failed =>
    cases hm
    exact ⟨.failed, by simp, rfl⟩

variable [DecidableEq ι]

theorem Undecided.drift (h : Undecided w e fullName d φ c) (n : Nat) :
    Undecided w e fullName d φ (c.step (machine env) (.drift n)) where
  users := h.users
  stage := h.stage
  sole := h.sole
  keys i hi := Store.look_none_later (Nat.le_add_right _ n) (h.keys i hi)

theorem WonBy.drift {t : ι} (h : WonBy w e d φ c t) (n : Nat) :
    WonBy w e d φ (c.step (machine env) (.drift n)) t where
  account := h.account
  winner := h.winner
  losers := h.losers
  keys i hi := Store.look_none_later (Nat.le_add_right _ n) (h.keys i hi)

variable {i : ι} {cmd : Cmd} {k : Except Exc cmd.Val → AuthM Reply} {φ' : Signup}

theorem Undecided.move (hcontest : Contest env w e email d) (h : Undecided w e fullName d φ c)
    (hp : (c.threads i).prog = .call cmd k)
    (hm : SignupMove env e (password i) (fullName i) (d i) (φ i) cmd
      ((c.threads i).locals, c.world) φ') (hwaits : ¬ AwaitsIndex c (.step i)) :
    Undecided w e fullName d (Function.update φ i φ') (c.issue (machine env) i cmd k) ∨
      ∃ t, WonBy w e d (Function.update φ i φ') (c.issue (machine env) i cmd k) t := by
  have hlower : env.lower e = e := by rw [← hcontest.emails i, hcontest.lower]
  have hids : ∀ row ∈ c.world.users, row.id ≠ (d i).userId := by
    rw [h.users]
    exact hcontest.ids i
  rcases (h.stage i).move hlower (h.vacant hcontest.vacant) hids hm with
    ⟨hstage, hcmd, hrow⟩ | ⟨row, hφ, rfl, rfl, hl, hemail, hdel⟩
  · left
    refine ⟨?_, forall_issue (P := fun j => Contender e (fullName j)) hstage fun j _ => h.stage j,
      sole_update h.sole ?_, ?_⟩
    · rw [world_issue, exec_users (.inl hcmd), h.users]
    · -- an insert that does not wait finds no row of another session
      intro hφ' j hj hjrow
      rcases hrow hφ' with hi | ⟨userId, hash, rfl⟩
      · exact hj (h.sole j i hjrow hi)
      · refine hwaits ⟨j, hj, ?_⟩
        have hstage := h.stage j
        generalize φ j = ψ at hstage hjrow
        generalize (c.threads j).locals = l at hstage
        have hnext : c.next i = some (.add userId e hash (fullName i)) := by
          simp [Config.next, hp, next]
        cases hstage with
        | inserted hemail hdel | keyed hemail hdel =>
          exact ⟨_, List.mem_singleton_self _, by simp [hnext, UserWrite.blocks, hemail, hdel]⟩
        | _ => exact absurd hjrow id
    · intro j hj
      rw [world_issue]
      by_cases hji : j = i
      · subst hji
        rw [Function.update_self] at hj
        rw [hm.look (.inl hj)]
        refine h.keys j fun row hrow' => ?_
        rw [hrow'] at hm
        cases hm
        exact absurd rfl hcmd
      · rw [Function.update_of_ne hji] at hj
        rw [hm.look (.inr fun htoken => hji (hcontest.tokens htoken))]
        exact h.keys j hj
  · -- the sole inserted row is committed
    right
    have hi : (φ i).holdsRow := by rw [hφ]; trivial
    have hfree : ∀ j, j ≠ i → ¬ (φ j).holdsRow := fun j hj hjrow => hj (h.sole j i hjrow hi)
    refine ⟨i, ⟨row, hemail, hdel, ?_⟩, ⟨row, Function.update_self ..⟩, ?_, ?_⟩
    · rw [world_issue, hl]
      simp [exec, UserWrite.apply, h.users]
    · intro j hj
      rw [Function.update_of_ne hj, Config.threads_issue_of_ne hj]
      have hstage := h.stage j
      have hjrow := hfree j hj
      generalize φ j = ψ at hstage hjrow
      generalize (c.threads j).locals = l at hstage
      cases hstage with
      | asking => exact .asking
      | vacant => exact .vacant
      | failed => exact .failed
      | _ => exact absurd trivial hjrow
    · intro j hj
      rw [world_issue, hm.look (.inl fun _ => by simp)]
      refine h.keys j fun row' hrow' => hfree j hj ?_
      rw [hrow']
      trivial

theorem WonBy.move (hcontest : Contest env w e email d) {t : ι} (h : WonBy w e d φ c t)
    (hm : SignupMove env e (password i) (fullName i) (d i) (φ i) cmd
      ((c.threads i).locals, c.world) φ') :
    WonBy w e d (Function.update φ i φ') (c.issue (machine env) i cmd k) t := by
  have hlower : env.lower e = e := by rw [← hcontest.emails i, hcontest.lower]
  have hi : i ≠ t := by
    rintro rfl
    obtain ⟨row, hφ⟩ := h.winner
    rw [hφ] at hm
    cases hm
  obtain ⟨hlate, -, hworld⟩ := (h.losers i hi).move hlower h.taken hm
  obtain ⟨row, hrow⟩ := h.winner
  refine ⟨?_, ⟨row, ?_⟩, ?_, ?_⟩
  · rw [world_issue, hworld]
    exact h.account
  · rw [Function.update_of_ne (Ne.symm hi), hrow]
  · intro j
    exact forall_issue (P := fun j ψ l => j ≠ t → TooLate ψ l) (fun _ => hlate)
      (fun j _ => h.losers j) j
  · intro j hj
    rw [world_issue, hworld]
    exact h.keys j hj

/-- Nobody has won yet, or one call has. -/
def Racing (w : World) (e : String) (fullName : ι → String) (d : ι → RegisterDraws)
    (φ : ι → Signup) (c : Threads ι) : Prop :=
  Undecided w e fullName d φ c ∨ ∃ t, WonBy w e d φ c t

theorem Racing.drift (h : Racing w e fullName d φ c) (n : Nat) :
    Racing w e fullName d φ (c.step (machine env) (.drift n)) :=
  h.imp (fun h => h.drift n) fun ⟨t, h⟩ => ⟨t, h.drift n⟩

theorem Racing.move (hcontest : Contest env w e email d) (h : Racing w e fullName d φ c)
    (hp : (c.threads i).prog = .call cmd k)
    (hm : SignupMove env e (password i) (fullName i) (d i) (φ i) cmd
      ((c.threads i).locals, c.world) φ') (hwaits : ¬ AwaitsIndex c (.step i)) :
    Racing w e fullName d (Function.update φ i φ') (c.issue (machine env) i cmd k) := by
  rcases h with h | ⟨t, h⟩
  · exact h.move hcontest hp hm hwaits
  · exact .inr ⟨t, h.move hcontest hm⟩

/-! ## Lookups that meet nobody -/

/-- At every lookup that found no account nobody else was on the way to one. -/
structure Lone (e : String) (fullName : ι → String) (φ : ι → Signup) (c : Threads ι) : Prop where
  failed : ∀ i, φ i ≠ .failed
  storable : ∀ i, (φ i).contends → Storable e (fullName i)
  sole : ∀ i k, (φ i).contends → (φ k).contends → i = k
  free : ∀ i, (φ i).contends → ¬ c.world.Taken e

omit [DecidableEq ι] in
theorem Lone.start : Lone e fullName (fun _ => .asking) c where
  failed _ := by simp
  storable _ hi := absurd hi id
  sole _ _ hi := absurd hi id
  free _ hi := absurd hi id

theorem Lone.drift (h : Lone e fullName φ c) (n : Nat) :
    Lone e fullName φ (c.step (machine env) (.drift n)) :=
  ⟨h.failed, h.storable, h.sole, h.free⟩

omit [DecidableEq ι] in
theorem registers_of_contends
    (hobey : AllObey (machine env) (fun i => SignupMove env e (password i) (fullName i) (d i))
      (fun i => SignupEnd (d i)) φ c) (hi : (φ i).contends) :
    (c.next i).any Cmd.registers = true := by
  have h := hobey i
  generalize φ i = ψ at h hi
  have hend : ∀ o, ¬ SignupEnd (d i) ψ o := by
    intro o ho
    cases ho <;> exact hi
  obtain ⟨cmd, φ', hnext, hm⟩ := h.exists_next hend ((c.threads i).locals, c.world)
  rw [Config.next, hnext]
  cases hm with
  | insert | reject | key | commit => rfl
  | _ => exact absurd hi id

omit [DecidableEq ι] in
/-- Up to its insert a call has nothing in its database session. -/
theorem locals_of_early (hJ : Racing w e fullName d φ c)
    (hφ : φ i = .asking ∨ φ i = .vacant) : (c.threads i).locals = [] := by
  rcases hJ with hJ | ⟨t, hJ⟩
  · have hstage := hJ.stage i
    generalize (c.threads i).locals = l at hstage
    rcases hφ with hφ | hφ <;> rw [hφ] at hstage <;> cases hstage <;> rfl
  · have hi : i ≠ t := by
      rintro rfl
      obtain ⟨row, hrow⟩ := hJ.winner
      rcases hφ with hφ | hφ <;> rw [hφ] at hrow <;> cases hrow
    have hstage := hJ.losers i hi
    generalize (c.threads i).locals = l at hstage
    rcases hφ with hφ | hφ <;> rw [hφ] at hstage <;> cases hstage <;> rfl

omit [DecidableEq ι] in
/-- Where a move leads while lookups meet nobody. -/
theorem Lone.leads (hcontest : Contest env w e email d)
    (hobey : AllObey (machine env) (fun i => SignupMove env e (password i) (fullName i) (d i))
      (fun i => SignupEnd (d i)) φ c)
    (hJ : Racing w e fullName d φ c) (h : Lone e fullName φ c)
    (hp : (c.threads i).prog = .call cmd k)
    (hm : SignupMove env e (password i) (fullName i) (d i) (φ i) cmd
      ((c.threads i).locals, c.world) φ') (hmeets : RegistersAlone e fullName c (.step i)) :
    φ' ≠ .failed ∧ (φ'.contends → cmd ≠ .commit ∧ Storable e (fullName i) ∧
      ¬ c.world.Taken e ∧ ∀ j, j ≠ i → ¬ (φ j).contends) ∧ (cmd = .commit → (φ i).contends) := by
  have hlower : env.lower e = e := by rw [← hcontest.emails i, hcontest.lower]
  have hlocals := locals_of_early (i := i) hJ
  have hcontends : (φ i).contends → Storable e (fullName i) ∧ ¬ c.world.Taken e ∧
      ∀ j, j ≠ i → ¬ (φ j).contends := fun hi =>
    ⟨h.storable i hi, h.free i hi, fun j hj hjcontends => hj (h.sole j i hjcontends hi)⟩
  generalize hφ : φ i = ψ at hm hcontends
  cases hm with
  | taken hfind => exact ⟨by simp, fun hway => absurd hway id, by simp⟩
  | vacant hfind =>
    rw [hlocals (.inl hφ), lookup_eq_none hlower] at hfind
    obtain ⟨hs, hnone⟩ := hmeets (by simp [Config.next, hp, next]) hfind
    refine ⟨by simp, fun _ => ⟨by simp, hs, hfind, fun j _ hj => ?_⟩, by simp⟩
    have hregisters := registers_of_contends hobey hj
    rw [hnone j] at hregisters
    cases hregisters
  | insert haccepts => exact ⟨by simp, fun _ => ⟨by simp, hcontends trivial⟩, by simp⟩
  | reject haccepts =>
    obtain ⟨hs, hfree, -⟩ := hcontends trivial
    rcases hJ with hJ | ⟨t, hJ⟩
    · have hrows : visibleRows [] c.world = w.users := by simp [visibleRows, hJ.users]
      rw [hlocals (.inr hφ), hrows,
        (accepts_iff_storable hcontest.vacant (hcontest.ids i)).mpr hs] at haccepts
      cases haccepts
    · exact absurd hJ.taken hfree
  | key => exact ⟨by simp, fun _ => ⟨by simp, hcontends trivial⟩, by simp⟩
  | commit => exact ⟨by simp, fun hway => absurd hway id, fun _ => trivial⟩
  | rollbackRefused => exact ⟨by simp, fun hway => absurd hway id, by simp⟩
  | rollbackFailed => exact absurd hφ (h.failed i)

theorem Lone.move (hcontest : Contest env w e email d)
    (hobey : AllObey (machine env) (fun i => SignupMove env e (password i) (fullName i) (d i))
      (fun i => SignupEnd (d i)) φ c)
    (hJ : Racing w e fullName d φ c) (h : Lone e fullName φ c)
    (hp : (c.threads i).prog = .call cmd k)
    (hm : SignupMove env e (password i) (fullName i) (d i) (φ i) cmd
      ((c.threads i).locals, c.world) φ') (hmeets : RegistersAlone e fullName c (.step i)) :
    Lone e fullName (Function.update φ i φ') (c.issue (machine env) i cmd k) := by
  obtain ⟨hfailed, hway, hcommit⟩ := h.leads hcontest hobey hJ hp hm hmeets
  have hkeep : cmd ≠ .commit → ¬ c.world.Taken e →
      ¬ (c.issue (machine env) i cmd k).world.Taken e := by
    intro hcmd hfree
    unfold World.Taken
    rw [world_issue, exec_users (.inl hcmd)]
    exact hfree
  refine ⟨?_, ?_, sole_update h.sole fun hi => (hway hi).2.2.2, ?_⟩
  · rw [Function.forall_update_iff φ fun _ ψ => ψ ≠ Signup.failed]
    exact ⟨hfailed, fun j _ => h.failed j⟩
  · rw [Function.forall_update_iff φ fun j ψ => Signup.contends ψ → Storable e (fullName j)]
    exact ⟨fun hi => (hway hi).2.1, fun j _ => h.storable j⟩
  · rw [Function.forall_update_iff φ fun _ ψ => Signup.contends ψ →
      ¬ (c.issue (machine env) i cmd k).world.Taken e]
    refine ⟨fun hi => hkeep (hway hi).1 (hway hi).2.2.1, fun j hj hjway => ?_⟩
    refine hkeep (fun hcmd => ?_) (h.free j hjway)
    exact hj (h.sole j i hjway (hcommit hcmd))

/-! ## Lookups that meet somebody -/

/-- The move of a call past a lookup that found no account; only a row that can be stored
gets past the insert. -/
theorem SignupMove.past {p n : String} {draws : RegisterDraws} {ψ ψ' : Signup} {s : State}
    (hm : SignupMove env e p n draws ψ cmd s ψ') (hψ : ψ.past)
    (hs : Storable e n ∨ ψ = .vacant ∨ ψ = .failed) :
    ψ'.past ∧ (Storable e n ∨ ψ' = .vacant ∨ ψ' = .failed) := by
  cases hm with
  | taken | vacant | rollbackRefused => exact absurd hψ id
  | insert haccepts =>
    simp only [World.accepts, Bool.and_eq_true] at haccepts
    exact ⟨trivial, .inl haccepts.1⟩
  | reject | rollbackFailed => exact ⟨trivial, .inr (.inr rfl)⟩
  | key | commit =>
    refine ⟨trivial, .inl ?_⟩
    rcases hs with hs | hs | hs
    · exact hs
    · cases hs
    · cases hs

/-- A call past a lookup that found no account ends with a success or a refused insert. -/
theorem past_ends
    (hobey : AllObey (machine env) (fun i => SignupMove env e (password i) (fullName i) (d i))
      (fun i => SignupEnd (d i)) φ c) (hi : (φ i).past)
    (hs : Storable e (fullName i) ∨ φ i = .vacant ∨ φ i = .failed) (schedule : List (Act ι Nat))
    (hended : ((c.run (machine env) schedule).outcome i).isSome) :
    (c.run (machine env) schedule).outcome i = some (.error .dbError) ∨
      (Storable e (fullName i) ∧ ∃ row,
        (c.run (machine env) schedule).outcome i = some (.ok (.registered row (d i).token))) := by
  obtain ⟨ψ, hobey', hpast, hs'⟩ := run_invariant_forall
    (J := fun (ψ : ι → Signup) _ =>
      (ψ i).past ∧ (Storable e (fullName i) ∨ ψ i = .vacant ∨ ψ i = .failed))
    (fun ψ c n _ hJ => hJ)
    (fun ψ c a cmd k ψ' _ hJ _ hm => by
      by_cases hai : i = a
      · subst hai
        rw [Function.update_self]
        exact hm.past hJ.1 hJ.2
      · rwa [Function.update_of_ne hai])
    hobey ⟨hi, hs⟩ schedule
  obtain ⟨o, ho⟩ := Option.isSome_iff_exists.mp hended
  have hfinal := hobey'.final ho
  rw [ho]
  generalize ψ i = ψi at hfinal hpast hs'
  cases hfinal with
  | refused => exact absurd hpast id
  | failed => exact .inl rfl
  | committed =>
    refine .inr ⟨?_, _, rfl⟩
    rcases hs' with hs' | hs' | hs'
    · exact hs'
    · cases hs'
    · cases hs'

/-- What a call past its lookup has shown while nobody has taken the address. -/
theorem Contender.storable {n : String} {ψ : Signup} {l : Session} (h : Contender e n ψ l)
    (hψ : ψ.contends) : ψ.past ∧ (Storable e n ∨ ψ = .vacant ∨ ψ = .failed) := by
  cases h with
  | asking | failed => exact absurd hψ id
  | vacant => exact ⟨trivial, .inr (.inl rfl)⟩
  | inserted hemail hdel hs | keyed hemail hdel hs => exact ⟨trivial, .inl hs⟩

omit [DecidableEq ι] in
/-- A lookup while nobody has taken the address finds no account. -/
theorem Undecided.looks_up (hcontest : Contest env w e email d)
    (h : Undecided w e fullName d φ c)
    (hm : SignupMove env e (password i) (fullName i) (d i) (φ i) (.getByEmail e)
      ((c.threads i).locals, c.world) φ') : φ i = .asking ∧ φ' = .vacant := by
  have hlower : env.lower e = e := by rw [← hcontest.emails i, hcontest.lower]
  have hlocals := locals_of_early (i := i) (.inl h)
  generalize hφ : φ i = ψ at hm
  cases hm with
  | taken hfind =>
    rw [hlocals (.inl hφ), (lookup_eq_none hlower).mpr (h.vacant hcontest.vacant)] at hfind
    cases hfind
  | vacant hfind => exact ⟨rfl, rfl⟩

omit [DecidableEq ι] in
/-- A call about to take a step between its lookup and its commit is there. -/
theorem contends_of_registers
    (hobey : AllObey (machine env) (fun i => SignupMove env e (password i) (fullName i) (d i))
      (fun i => SignupEnd (d i)) φ c) (hi : (c.next i).any Cmd.registers = true) :
    (φ i).contends := by
  obtain ⟨cmd, hnext, hcmd⟩ := (Option.any_eq_true _ _).mp hi
  obtain ⟨φ', hm⟩ := (hobey i).move_of_next hnext ((c.threads i).locals, c.world)
  generalize φ i = ψ at hm
  cases hm with
  | insert | reject | key | commit => trivial
  | _ => cases hcmd

/-! ## How a race ends -/

/-- The call has registered an account. -/
def SignsUp (c : Threads ι) (i : ι) : Prop :=
  ∃ user token, c.outcome i = some (.ok (.registered user token))

/-- One request has succeeded, the address has one active account, and no other request
has left a verification key. -/
structure Resolved (e : String) (d : ι → RegisterDraws) (c : Threads ι) : Prop where
  one : ∃! i, SignsUp c i
  account : (c.world.users.filter fun row => row.deletedAt.isNone && row.email == e).length = 1
  keys : ∀ i, ¬ SignsUp c i →
    c.world.redis.look c.world.now (emailVerifyKey (d i).token) = none

/-- And every other request has raised `EmailAlreadyRegisteredError`, a 409. -/
structure ResolvedCleanly (e : String) (d : ι → RegisterDraws) (c : Threads ι) : Prop
    extends Resolved e d c where
  refused : ∀ i, ¬ SignsUp c i → ∃ message,
    c.outcome i = some (.error (.emailAlreadyRegisteredError message)) ∧
    (Exc.response (.emailAlreadyRegisteredError message)).status = 409

omit [DecidableEq ι] in
/-- In a race that nobody has won every call ends with a row that cannot be stored. -/
theorem Undecided.all_failed (h : Undecided w e fullName d φ c)
    (hobey : AllObey (machine env) (fun i => SignupMove env e (password i) (fullName i) (d i))
      (fun i => SignupEnd (d i)) φ c) (hended : ∀ i, (c.outcome i).isSome) (i : ι) :
    φ i = .failed ∧ ¬ Storable e (fullName i) := by
  obtain ⟨o, ho⟩ := Option.isSome_iff_exists.mp (hended i)
  have hfinal := hobey.final ho
  have hstage := h.stage i
  generalize φ i = ψ at hfinal hstage
  generalize (c.threads i).locals = l at hstage
  cases hstage with
  | failed hs => exact ⟨rfl, hs⟩
  | _ => cases hfinal

omit [DecidableEq ι] in
/-- A race that somebody has won is resolved once all have ended. -/
theorem WonBy.resolved {t : ι} (hcontest : Contest env w e email d) (h : WonBy w e d φ c t)
    (hobey : AllObey (machine env) (fun i => SignupMove env e (password i) (fullName i) (d i))
      (fun i => SignupEnd (d i)) φ c) (hended : ∀ i, (c.outcome i).isSome) :
    Resolved e d c ∧ SignsUp c t ∧ ∀ i, i ≠ t → (φ i = .refused ∨ φ i = .failed) := by
  have hwinner : SignsUp c t := by
    obtain ⟨o, ho⟩ := Option.isSome_iff_exists.mp (hended t)
    have hfinal := hobey.final ho
    obtain ⟨row, hrow⟩ := h.winner
    rw [hrow] at hfinal
    cases hfinal
    exact ⟨_, _, ho⟩
  have hloser : ∀ i, i ≠ t → ¬ SignsUp c i ∧ (φ i = .refused ∨ φ i = .failed) := by
    intro i hi
    obtain ⟨o, ho⟩ := Option.isSome_iff_exists.mp (hended i)
    have hfinal := hobey.final ho
    have hlate := h.losers i hi
    generalize φ i = ψ at hfinal hlate
    generalize (c.threads i).locals = l at hlate
    have hnot : ∀ exc, o = .error exc → ¬ SignsUp c i := by
      rintro exc rfl ⟨user, token, hsome⟩
      rw [ho] at hsome
      cases hsome
    cases hlate with
    | asking | vacant => cases hfinal
    | refused =>
      cases hfinal
      exact ⟨hnot _ rfl, .inl rfl⟩
    | failed =>
      cases hfinal
      exact ⟨hnot _ rfl, .inr rfl⟩
  refine ⟨⟨⟨t, hwinner, fun i hi => ?_⟩, ?_, ?_⟩, hwinner, fun i hi => (hloser i hi).2⟩
  · by_contra hne
    exact (hloser i hne).1 hi
  · obtain ⟨row, hemail, hdel, husers⟩ := h.account
    have hbefore : w.users.filter (fun row => row.deletedAt.isNone && row.email == e) = [] := by
      rw [List.filter_eq_nil_iff]
      intro row hrow hboth
      simp only [Bool.and_eq_true, Option.isNone_iff_eq_none, beq_iff_eq] at hboth
      exact hcontest.vacant ⟨row, hrow, hboth⟩
    rw [husers, List.filter_append, hbefore]
    simp [hemail, hdel]
  · intro i hi
    refine h.keys i ?_
    rintro rfl
    exact hi hwinner

/-- In a race that ends cleanly a call whose lookup finds no account has a row that can be
stored, and nobody else is past a lookup: they would all succeed in the end. -/
theorem Undecided.alone (hcontest : Contest env w e email d) (h : Undecided w e fullName d φ c)
    (hobey : AllObey (machine env) (fun i => SignupMove env e (password i) (fullName i) (d i))
      (fun i => SignupEnd (d i)) φ c)
    {k : Except Exc (Option User) → AuthM Reply} (hp : (c.threads i).prog = .call (.getByEmail e) k)
    {as : List (Act ι Nat)} {c' : Threads ι}
    (hrun : c' = (c.issue (machine env) i (.getByEmail e) k).run (machine env) as)
    (hended : ∀ j, (c'.outcome j).isSome) (hclean : ResolvedCleanly e d c') :
    Storable e (fullName i) ∧ ∀ j, (c.next j).any Cmd.registers = false := by
  obtain ⟨φ', hm, hobey'⟩ := hobey.issue hp
  obtain ⟨hi, rfl⟩ := h.looks_up hcontest hm
  -- whoever is past its lookup now has registered in the end
  have hsucceeds : ∀ j, (Function.update φ i .vacant j).past → (Storable e (fullName j) ∨
      Function.update φ i .vacant j = .vacant ∨ Function.update φ i .vacant j = .failed) →
      SignsUp c' j ∧ Storable e (fullName j) := by
    intro j hpast hs
    have hends := past_ends hobey' hpast hs as (by rw [← hrun]; exact hended j)
    rw [← hrun] at hends
    rcases hends with hdb | ⟨hs, row, hok⟩
    · have hnot : ¬ SignsUp c' j := by
        rintro ⟨user, token, hsome⟩
        rw [hdb] at hsome
        cases hsome
      obtain ⟨message, hsome, -⟩ := hclean.refused j hnot
      rw [hdb] at hsome
      cases hsome
    · exact ⟨⟨row, _, hok⟩, hs⟩
  obtain ⟨hsigns, hs⟩ := hsucceeds i (by rw [Function.update_self]; trivial)
    (by rw [Function.update_self]; exact .inr (.inl rfl))
  refine ⟨hs, fun j => ?_⟩
  rw [Bool.eq_false_iff]
  intro hregisters
  have hj := contends_of_registers hobey hregisters
  have hne : j ≠ i := by
    rintro rfl
    rw [hi] at hj
    exact hj
  have hstorable := (h.stage j).storable hj
  have hjsigns := hsucceeds j (by rw [Function.update_of_ne hne]; exact hstorable.1)
    (by rw [Function.update_of_ne hne]; exact hstorable.2)
  exact hne (hclean.one.unique hjsigns.1 hsigns)

omit [DecidableEq ι] in
/-- A race in which no lookup met anybody ends cleanly. -/
theorem Racing.cleanly [Nonempty ι] (hcontest : Contest env w e email d)
    (h : Racing w e fullName d φ c) (hl : Lone e fullName φ c)
    (hobey : AllObey (machine env) (fun i => SignupMove env e (password i) (fullName i) (d i))
      (fun i => SignupEnd (d i)) φ c) (hended : ∀ i, (c.outcome i).isSome) :
    ResolvedCleanly e d c := by
  rcases h with h | ⟨t, h⟩
  · obtain ⟨i⟩ := ‹Nonempty ι›
    exact absurd (h.all_failed hobey hended i).1 (hl.failed i)
  · obtain ⟨hresolved, hwinner, hlosers⟩ := h.resolved hcontest hobey hended
    refine ⟨hresolved, fun i hi => ⟨registeredMessage, ?_, rfl⟩⟩
    have hit : i ≠ t := by
      rintro rfl
      exact hi hwinner
    obtain ⟨o, ho⟩ := Option.isSome_iff_exists.mp (hended i)
    have hfinal := hobey.final ho
    rw [(hlosers i hit).resolve_right (hl.failed i)] at hfinal
    cases hfinal
    exact ho

end Runs

/-- Any number of registrations of one free address, in every order of their commands that
the index admits. Once all have ended, one has succeeded, if a row of any of them can be
stored at all, and the address has one account; and the race is resolved cleanly exactly if
every lookup that found no account was one of a request whose row can be stored and met
no other request between its lookup and its commit. -/
theorem racing_registrations {ι : Type} [Fintype ι] [DecidableEq ι] [Nonempty ι] (env : Env)
    (w : World) (e : String) (email password fullName : ι → String) (d : ι → RegisterDraws)
    (hcontest : Contest env w e email d) (schedule : List (Act ι Nat)) :
    let start := beside env w (registrations email password fullName d)
    let taken := start.admitted (machine env) AwaitsIndex schedule
    let c := start.run (machine env) taken
    (∀ i, (c.outcome i).isSome) →
      ((∃ i, Storable e (fullName i)) → Resolved e d c) ∧
      (ResolvedCleanly e d c ↔
        start.Along (machine env) (RegistersAlone e fullName) taken) := by
  intro start taken c hended
  have hstart : AllObey (machine env)
      (fun i => SignupMove env e (password i) (fullName i) (d i)) (fun i => SignupEnd (d i))
      (fun _ => .asking) start := fun i => by
    have h := registrations_obey env (email i) (password i) (fullName i) (d i)
    rw [hcontest.emails i] at h
    exact h
  have hadmitted : start.Along (machine env) (fun c a => ¬ AwaitsIndex c a) taken :=
    Config.along_admitted schedule
  have hreach : ∀ as, start.Along (machine env) (fun c a => ¬ AwaitsIndex c a) as → _ :=
    fun as has => run_invariant
      (J := Racing w e fullName d)
      (fun φ c n _ hJ _ => hJ.drift n)
      (fun φ c i cmd k φ' _ hJ hp hm hwaits => hJ.move hcontest hp hm hwaits)
      hstart (.inl (.start hcontest _)) has
  refine ⟨?_, ?_, ?_⟩
  · rintro ⟨i, hs⟩
    obtain ⟨φ, hobey, hJ, -⟩ := hreach taken hadmitted
    rcases hJ with h | ⟨t, h⟩
    · exact absurd hs (h.all_failed hobey hended i).2
    · exact (h.resolved hcontest hobey hended).1
  · intro hclean
    by_contra hnot
    obtain ⟨as, a, bs, htaken, has, ha⟩ := Config.exists_of_not_along hnot
    rw [htaken] at hadmitted
    obtain ⟨φ, hobey, hJ, -⟩ := hreach as (Config.along_append.mp hadmitted).1
    cases a with
    | drift n => exact ha trivial
    | step i =>
      simp only [RegistersAlone, Classical.not_imp] at ha
      obtain ⟨hnext, hfree, hmet⟩ := ha
      rcases hJ with h | ⟨t, h⟩
      · cases hp : ((start.run (machine env) as).threads i).prog with
        | done o => simp [Config.next, hp, next] at hnext
        | call cmd k =>
          obtain rfl : cmd = .getByEmail e := by simpa [Config.next, hp, next] using hnext
          have hrun : c = ((start.run (machine env) as).issue (machine env) i _ k).run
              (machine env) bs := by
            rw [← Config.step_of_call hp, ← Config.run_cons, ← Config.run_append, ← htaken]
          exact hmet (h.alone hcontest hobey hp hrun hended hclean)
      · exact hfree h.taken
  · intro halone
    obtain ⟨φ, hobey, ⟨hJ, hl⟩, -⟩ := run_invariant
      (J := fun φ c => Racing w e fullName d φ c ∧ Lone e fullName φ c)
      (fun φ c n _ hJ _ => ⟨hJ.1.drift n, hJ.2.drift n⟩)
      (fun φ c i cmd k φ' hobey hJ hp hm
        (hmeets : ¬ AwaitsIndex c (.step i) ∧ RegistersAlone e fullName c (.step i)) =>
        ⟨hJ.1.move hcontest hp hm hmeets.1, hJ.2.move hcontest hobey hJ.1 hp hm hmeets.2⟩)
      hstart ⟨.inl (.start hcontest _), .start⟩ (hadmitted.and halone)
    exact hJ.cleanly hcontest hl hobey hended

/-! ### Two registrations -/

def nobody : World where
  now := 1000
  redis := Store.empty
  users := []
  issued := []

def twoSpellings : Fin 2 → String
  | 0 => "Ada@example.com"
  | 1 => "ada@Example.com"

def twoNames : Fin 2 → String
  | 0 => "Ada"
  | 1 => "Ada Lovelace"

def twoSignups : Fin 2 → RegisterDraws
  | 0 => ⟨plainUuid .zero .one, "s1", "v1"⟩
  | 1 => ⟨plainUuid .zero .two, "s2", "v2"⟩

theorem two_contest : Contest plainEnv nobody "ada@example.com" twoSpellings twoSignups where
  lower := saltedEnv_lower
  emails := by decide +kernel
  vacant := by decide +kernel
  ids := by decide +kernel
  tokens := by decide +kernel
  unset i := rfl

/-- One after the other: the race is resolved cleanly. -/
theorem racing_registrations_serial :
    ResolvedCleanly "ada@example.com" twoSignups
      ((beside plainEnv nobody (registrations twoSpellings twoPasswords twoNames twoSignups)).run
        (machine plainEnv) ((beside plainEnv nobody (registrations twoSpellings twoPasswords twoNames
          twoSignups)).admitted (machine plainEnv) AwaitsIndex
            (List.replicate 4 (.step 0) ++ List.replicate 2 (.step 1)))) := by
  refine ((racing_registrations plainEnv nobody "ada@example.com" twoSpellings twoPasswords twoNames
    twoSignups two_contest (List.replicate 4 (.step 0) ++ List.replicate 2 (.step 1))) ?_).2.mpr ?_
  · decide +kernel
  · decide +kernel

/-- Both look the address up before either inserts a row. The second insert waits for the
first session to end, is refused then, and the request ends with a 500. -/
theorem racing_registrations_refused :
    let start := beside plainEnv nobody (registrations twoSpellings twoPasswords twoNames twoSignups)
    let c := start.run (machine plainEnv) (start.admitted (machine plainEnv) AwaitsIndex
      [.step 0, .step 1, .step 0, .step 1, .step 0, .step 1, .step 0, .step 1, .step 1])
    (∀ i, (c.outcome i).isSome) ∧ c.outcome 1 = some (.error .dbError) ∧
      (Exc.response .dbError).status = 500 ∧ ¬ ResolvedCleanly "ada@example.com" twoSignups c := by
  intro start c
  have hended : ∀ i, (c.outcome i).isSome := by decide +kernel
  have hone : c.outcome 1 = some (.error .dbError) := by decide +kernel
  refine ⟨hended, hone, rfl, fun hclean => ?_⟩
  have hnot : ¬ SignsUp c 1 := by
    rintro ⟨user, token, hsome⟩
    rw [hone] at hsome
    cases hsome
  obtain ⟨message, hsome, -⟩ := hclean.refused 1 hnot
  rw [hone] at hsome
  cases hsome

end TaskMgtApp.Auth
