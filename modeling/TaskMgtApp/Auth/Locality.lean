import TaskMgtApp.Auth.Footprints
import TaskMgtApp.Auth.Credentials

/-!
# What a request depends on

A request concerns one account: the one its email names, or the one its token was
issued for. Two worlds that look the same as far as that account and the keys the
request touches go serve it with the same outcome and the same writes.
-/
namespace TaskMgtApp.Auth

open TaskMgtApp.Common
open TaskMgtApp.Lib.ExpiringStore

/-- The request concerns the account `u` with the normalized email `e`, and the token
it presents, if any, was issued for that account. -/
inductive Concerns (env : Env) (t : Trace) (e : String) (u : UUID) : Request → Prop
  | register {email password fullName : String} {d : RegisterDraws}
      (hemail : env.lower email = e) (hid : d.userId = u) :
      Concerns env t e u (.register email password fullName d)
  | login {email password : String} {d : IssueDraws} (hemail : env.lower email = e)
      (hid : ∀ row ∈ t.world.users, row.deletedAt = none → row.email = e → row.id = u) :
      Concerns env t e u (.login email password d)
  | requestPasswordReset {email x : String} (hemail : env.lower email = e)
      (hid : ∀ row ∈ t.world.users, row.deletedAt = none → row.email = e → row.id = u) :
      Concerns env t e u (.requestPasswordReset email x)
  | verifyEmail {x : String} (hx : Registered t.log x u)
      (hemail : ∀ row ∈ t.world.users, row.id = u → row.email = e) :
      Concerns env t e u (.verifyEmail x)
  | resetPassword {x newPassword salt : String} (hx : ResetIssued t.log x u)
      (hemail : ∀ row ∈ t.world.users, row.id = u → row.email = e) :
      Concerns env t e u (.resetPassword x newPassword salt)
  | refreshAccessToken {T a b : String} {d : IssueDraws} (hT : IssuedTo env t.log a b u)
      (hpair : T = a ∨ T = b) (hemail : ∀ row ∈ t.world.users, row.id = u → row.email = e) :
      Concerns env t e u (.refreshAccessToken T d)
  | logout {T a b : String} (hT : IssuedTo env t.log a b u) (hpair : T = a ∨ T = b)
      (hemail : ∀ row ∈ t.world.users, row.id = u → row.email = e) :
      Concerns env t e u (.logout T)

/-! ## Writes to the table -/

namespace UserWrite

/-- The account a write is about. -/
def userId : UserWrite → UUID
  | insert row => row.id
  | emailVerified loaded => loaded.id
  | passwordHash loaded _ => loaded.id

theorem applyRow_of_ne {now : Nat} {row : User} {write : UserWrite} (h : row.id ≠ write.userId) :
    write.applyRow now row = row := by
  cases write with
  | insert row' => rfl
  | emailVerified loaded | passwordHash loaded hash => exact if_neg fun hand => h hand.1

/-- The rows a write adds. -/
def added : UserWrite → List User
  | insert row => [row]
  | _ => []

theorem apply_eq (now : Nat) (users : List User) (write : UserWrite) :
    apply now users write = (users.map fun row => write.applyRow now row) ++ write.added := by
  cases write with
  | insert row => simp [apply, applyRow, added]
  | emailVerified loaded | passwordHash loaded hash => simp [apply, added]

theorem id_of_added {write : UserWrite} {row : User} (h : row ∈ write.added) :
    row.id = write.userId := by
  cases write with
  | insert row' =>
    obtain rfl := List.mem_singleton.mp h
    rfl
  | emailVerified loaded | passwordHash loaded hash => cases h

/-- Two writes about different accounts leave each row alike in either order. -/
theorem applyRow_comm {now : Nat} {x y : UserWrite} (h : x.userId ≠ y.userId) (row : User) :
    y.applyRow now (x.applyRow now row) = x.applyRow now (y.applyRow now row) := by
  by_cases hx : row.id = x.userId
  · have hy : row.id ≠ y.userId := fun hy => h (hx.symm.trans hy)
    have hy' : (x.applyRow now row).id ≠ y.userId := by
      rw [(applyRow_keeps now row x).1]
      exact hy
    rw [applyRow_of_ne hy, applyRow_of_ne hy']
  · have hx' : (y.applyRow now row).id ≠ x.userId := by
      rw [(applyRow_keeps now row y).1]
      exact hx
    rw [applyRow_of_ne hx, applyRow_of_ne hx']

/-- Writes about different accounts commute, up to the order of the rows. -/
theorem apply_comm {now : Nat} {users : List User} {x y : UserWrite} (h : x.userId ≠ y.userId) :
    (apply now (apply now users x) y).Perm (apply now (apply now users y) x) := by
  have hadded : ∀ {x y : UserWrite}, x.userId ≠ y.userId →
      x.added.map (fun row => y.applyRow now row) = x.added := by
    intro x y hne
    calc x.added.map (fun row => y.applyRow now row)
        = x.added.map id := List.map_congr_left fun row hrow =>
          applyRow_of_ne (by rwa [id_of_added hrow])
      _ = x.added := List.map_id _
  have hrows : (users.map fun row => x.applyRow now row).map (fun row => y.applyRow now row) =
      (users.map fun row => y.applyRow now row).map (fun row => x.applyRow now row) := by
    rw [List.map_map, List.map_map]
    exact List.map_congr_left fun row _ => applyRow_comm h row
  simp only [apply_eq, List.map_append, hadded h, hadded (Ne.symm h), hrows, List.append_assoc]
  exact List.Perm.append_left _ List.perm_append_comm

/-- A lookup of rows of another account does not see a write. -/
theorem find?_apply {now : Nat} {users : List User} {x : UserWrite} {p : User → Bool}
    (hp : ∀ row, p (x.applyRow now row) = p row)
    (hnot : ∀ row ∈ users ++ x.added, row.id = x.userId → p row = false) :
    (apply now users x).find? p = users.find? p := by
  have hadded : x.added.find? p = none := by
    rw [List.find?_eq_none]
    intro row hrow
    rw [hnot row (List.mem_append_right _ hrow) (id_of_added hrow)]
    exact Bool.false_ne_true
  have hcomp : (p ∘ fun row => x.applyRow now row) = p := funext hp
  rw [apply_eq, List.find?_append, hadded, Option.or_none, List.find?_map, hcomp]
  cases hfind : users.find? p with
  | none => rfl
  | some row =>
    have hne : row.id ≠ x.userId := by
      intro hid
      have hfalse := hnot row (List.mem_append_left _ (List.mem_of_find?_eq_some hfind)) hid
      rw [List.find?_some hfind] at hfalse
      cases hfalse
    rw [Option.map_some, applyRow_of_ne hne]

/-- A write leaves the rows of every other account. -/
theorem filter_apply {now : Nat} {users : List User} {x : UserWrite} {u : UUID}
    (h : x.userId ≠ u) :
    (apply now users x).filter (fun row => row.id = u) = users.filter fun row => row.id = u := by
  have hadded : x.added.filter (fun row => row.id = u) = [] := by
    rw [List.filter_eq_nil_iff]
    intro row hrow hid
    exact h ((id_of_added hrow).symm.trans (of_decide_eq_true hid))
  have hcomp : ((fun row : User => decide (row.id = u)) ∘ fun row => x.applyRow now row) =
      fun row => decide (row.id = u) := by
    funext row
    rw [Function.comp_apply, (applyRow_keeps now row x).1]
  rw [apply_eq, List.filter_append, hadded, List.append_nil, List.filter_map, hcomp]
  calc (users.filter fun row => row.id = u).map (fun row => x.applyRow now row)
      = (users.filter fun row => row.id = u).map id := List.map_congr_left fun row hrow =>
        applyRow_of_ne fun hid =>
          h (hid.symm.trans (of_decide_eq_true (List.mem_filter.mp hrow).2))
    _ = users.filter fun row => row.id = u := List.map_id _

/-- The write is about the account `u`, whose rows have the email `e`. -/
structure About (users : List User) (e : String) (u : UUID) (x : UserWrite) : Prop where
  userId : x.userId = u
  email : ∀ row ∈ users ++ x.added, row.id = u → row.email = e

end UserWrite

/-- The table after at most one write. -/
def written (now : Nat) (x : Option UserWrite) (users : List User) : List User :=
  x.elim users (UserWrite.apply now users)

/-- Writes for different accounts, or none, commute. -/
theorem written_comm {now : Nat} {users : List User} {x y : Option UserWrite} {u u' : UUID}
    (hx : ∀ write ∈ x, write.userId = u) (hy : ∀ write ∈ y, write.userId = u') (hne : u ≠ u') :
    (written now y (written now x users)).Perm (written now x (written now y users)) := by
  cases x with
  | none => exact .refl _
  | some x =>
    cases y with
    | none => exact .refl _
    | some y =>
      refine UserWrite.apply_comm ?_
      rw [hx x rfl, hy y rfl]
      exact hne

section Others
variable {env : Env} {now : Nat} {users : List User} {x : Option UserWrite} {e e' : String}
  {u u' : UUID}

theorem find?_written {p : User → Bool} (hx : ∀ write ∈ x, write.About users e u)
    (hp : ∀ row write, p (UserWrite.applyRow now row write) = p row)
    (hnot : ∀ row : User, row.id = u → row.email = e → p row = false) :
    (written now x users).find? p = users.find? p := by
  cases x with
  | none => rfl
  | some write =>
    have h := hx write rfl
    exact UserWrite.find?_apply (fun row => hp row write) fun row hrow hid =>
      hnot row (hid.trans h.userId) (h.email row hrow (hid.trans h.userId))

/-- Another account is found as before. -/
theorem userByEmail_written {w w' : World} (hw' : w'.users = written now x w.users)
    (hx : ∀ write ∈ x, write.About w.users e u) {email : String} (hne : e ≠ env.lower email) :
    w'.userByEmail env email = w.userByEmail env email := by
  unfold World.userByEmail
  rw [hw']
  refine find?_written hx (fun row write => ?_) fun row _ hemail => ?_
  · rw [(applyRow_keeps now row write).2.1, (applyRow_keeps now row write).2.2.2]
  · simp [hemail, hne]

theorem userById_written {w w' : World} (hw' : w'.users = written now x w.users)
    (hx : ∀ write ∈ x, write.About w.users e u) (hne : u ≠ u') :
    w'.userById u' = w.userById u' := by
  unfold World.userById
  rw [hw']
  refine find?_written hx (fun row write => ?_) fun row hid _ => ?_
  · rw [(applyRow_keeps now row write).1, (applyRow_keeps now row write).2.2.2]
  · simp [hid, hne]

/-- The table takes a row unless one is found that clashes with it. -/
theorem accepts_eq (row : User) : World.accepts users row =
    (fits 320 row.email && fits 255 row.fullName &&
      (users.find? fun other =>
        other.id == row.id || (other.deletedAt.isNone && other.email == row.email)).isNone) := by
  unfold World.accepts
  congr 1
  rw [Bool.eq_iff_iff, List.all_eq_true, Option.isNone_iff_eq_none, List.find?_eq_none]
  refine forall₂_congr fun other _ => ?_
  by_cases hid : other.id = row.id
  · simp [hid]
  · cases hdel : other.deletedAt <;> simp [hid]

/-- The table takes a row of another account as before. -/
theorem accepts_written (hx : ∀ write ∈ x, write.About users e u) (hemail : e ≠ e') (hid : u ≠ u')
    {row : User} (hrowe : row.email = e') (hrowu : row.id = u') :
    World.accepts (written now x users) row = World.accepts users row := by
  rw [accepts_eq, accepts_eq, find?_written hx]
  · intro other write
    rw [(applyRow_keeps now other write).1, (applyRow_keeps now other write).2.1,
      (applyRow_keeps now other write).2.2.2]
  · intro other hotherid hotheremail
    simp [hotherid, hotheremail, hrowe, hrowu, hemail, hid]

end Others

/-! ## Serving a request in two worlds -/

/-- The two worlds look the same to a request for the account `u` with the email `e`. -/
structure LooksAlike (env : Env) (r : Request) (e : String) (u : UUID) (w w' : World) : Prop where
  now : w'.now = w.now
  keys : ∀ k, r.Touches env w k → SameAt w.redis w'.redis k
  byEmail : ∀ email, env.lower email = e →
    w'.userByEmail env (env.lower email) = w.userByEmail env (env.lower email)
  byId : w'.userById u = w.userById u
  accepts : ∀ row, row.email = e → row.id = u →
    World.accepts w'.users row = World.accepts w.users row
  claims : ∀ T, (∃ d, r = .refreshAccessToken T d) ∨ r = .logout T →
    w'.refreshClaims env T = w.refreshClaims env T

/-- Two servings of a request, from `w` and from `w'`, that do the same. -/
structure ServedAlike (e : String) (u : UUID) (w w' : World)
    (s s' : Except Exc Reply × World) : Prop where
  outcome : s'.1 = s.1
  users : ∃ x : Option UserWrite, (∀ write ∈ x, write.About w.users e u) ∧
    s.2.users = written w.now x w.users ∧ s'.2.users = written w.now x w'.users
  redis : ∀ k, SameAt w.redis w'.redis k → SameAt s.2.redis s'.2.redis k
  issued : ∃ tokens, s.2.issued = tokens ++ w.issued ∧ s'.2.issued = tokens ++ w'.issued

section Serving
variable {env : Env} {t : Trace} {r : Request} {e : String} {u : UUID} {w' : World}

/-- A request that ends where it began. -/
theorem ServedAlike.still {w : World} (o : Except Exc Reply) :
    ServedAlike e u w w' (o, w) (o, w') where
  outcome := rfl
  users := ⟨none, by simp, rfl, rfl⟩
  redis _ h := h
  issued := ⟨[], rfl, rfl⟩

theorem serve_register_alike {email password fullName : String} {d : RegisterDraws}
    (hc : Concerns env t e u (.register email password fullName d))
    (h : LooksAlike env (.register email password fullName d) e u t.world w') :
    ServedAlike e u t.world w' (serve env t.world (.register email password fullName d))
      (serve env w' (.register email password fullName d)) := by
  cases hc with
  | register hemail hid =>
    subst hemail hid
    have hnew : w'.newUser d.userId (env.lower email) (env.hash password d.salt) fullName =
        t.world.newUser d.userId (env.lower email) (env.hash password d.salt) fullName := by
      unfold World.newUser
      rw [h.now]
    rw [serve_register, serve_register, h.byEmail email rfl, hnew]
    cases t.world.userByEmail env (env.lower email) with
    | some user => exact .still _
    | none =>
      dsimp only
      rw [h.accepts _ rfl rfl]
      split
      · rename_i haccepts
        refine ⟨rfl, ⟨some (.insert _), ?_, rfl, rfl⟩, fun k hk => ?_, [], rfl, rfl⟩
        · rintro _ ⟨⟩
          refine ⟨rfl, fun row hrow hid => ?_⟩
          rcases List.mem_append.mp hrow with hrow | hrow
          · exact absurd hid (accepts_spec haccepts hrow).1
          · obtain rfl := List.mem_singleton.mp hrow
            rfl
        · rw [h.now]
          exact hk.setEx _ _
      · exact .still _

theorem serve_verifyEmail_alike (hledger : Ledger env t) (honce : OneTimeTokens t.log) {x : String}
    (hc : Concerns env t e u (.verifyEmail x))
    (h : LooksAlike env (.verifyEmail x) e u t.world w') :
    ServedAlike e u t.world w' (serve env t.world (.verifyEmail x))
      (serve env w' (.verifyEmail x)) := by
  cases hc with
  | verifyEmail hx hemail =>
    rw [serve_verifyEmail, serve_verifyEmail, (h.keys _ .verifyEmail).text h.now]
    cases htext : t.world.text (emailVerifyKey x) with
    | none => exact .still _
    | some userId =>
      cases hparse : UUID.parse userId with
      | none =>
        simp only [hparse]
        exact .still _
      | some id =>
        obtain rfl := UUID.parse_eq_some.mp hparse
        obtain ⟨-, -, -, hx'⟩ := hledger.verifyCell htext
        obtain rfl : id = u := (honce.unique true true x id u hx' hx).2
        simp only [hparse, h.byId]
        cases huser : t.world.userById id with
        | none => exact .still _
        | some user =>
          refine ⟨rfl, ⟨some (.emailVerified user), ?_, rfl, ?_⟩, fun k hk => ?_, [], rfl, rfl⟩
          · rintro _ ⟨⟩
            refine ⟨World.id_of_userById huser, fun row hrow hid => ?_⟩
            exact hemail row (by simpa [UserWrite.added] using hrow) hid
          · dsimp only
            rw [h.now]
            rfl
          · dsimp only
            rw [h.now]
            exact hk.delete _

theorem serve_resetPassword_alike (hledger : Ledger env t) (honce : OneTimeTokens t.log)
    {x newPassword salt : String} (hc : Concerns env t e u (.resetPassword x newPassword salt))
    (h : LooksAlike env (.resetPassword x newPassword salt) e u t.world w') :
    ServedAlike e u t.world w' (serve env t.world (.resetPassword x newPassword salt))
      (serve env w' (.resetPassword x newPassword salt)) := by
  cases hc with
  | resetPassword hx hemail =>
    rw [serve_resetPassword, serve_resetPassword, (h.keys _ .reset).text h.now]
    cases htext : t.world.text (pwdResetKey x) with
    | none => exact .still _
    | some userId =>
      cases hparse : UUID.parse userId with
      | none =>
        simp only [hparse]
        exact .still _
      | some id =>
        obtain rfl := UUID.parse_eq_some.mp hparse
        obtain ⟨-, -, -, hx'⟩ := hledger.resetCell htext
        obtain rfl : id = u := (honce.unique false false x id u hx' hx).2
        simp only [hparse, h.byId]
        cases huser : t.world.userById id with
        | none => exact .still _
        | some user =>
          obtain rfl := World.id_of_userById huser
          refine ⟨rfl, ⟨some (.passwordHash user (env.hash newPassword salt)), ?_, rfl, ?_⟩,
            fun k hk => ?_, [], rfl, rfl⟩
          · rintro _ ⟨⟩
            refine ⟨rfl, fun row hrow hid => ?_⟩
            exact hemail row (by simpa [UserWrite.added] using hrow) hid
          · dsimp only
            rw [h.now]
            rfl
          · have hindex :=
              (h.keys _ (.revokedIndex htext)).delete (t := t.world.now) {pwdResetKey x}
            refine SameAt.revokeAll (w := { t.world with
              redis := (t.world.redis.delete t.world.now {pwdResetKey x}).2 }) h.now ?_ ?_
            · dsimp only
              rw [h.now]
              exact hindex.sets
            · dsimp only
              rw [h.now]
              exact hk.delete _

theorem serve_requestPasswordReset_alike {email x : String}
    (hc : Concerns env t e u (.requestPasswordReset email x))
    (h : LooksAlike env (.requestPasswordReset email x) e u t.world w') :
    ServedAlike e u t.world w' (serve env t.world (.requestPasswordReset email x))
      (serve env w' (.requestPasswordReset email x)) := by
  cases hc with
  | requestPasswordReset hemail hid =>
    subst hemail
    rw [serve_requestPasswordReset, serve_requestPasswordReset, h.byEmail email rfl]
    cases t.world.userByEmail env (env.lower email) with
    | none => exact .still _
    | some user =>
      refine ⟨rfl, ⟨none, by simp, rfl, rfl⟩, fun k hk => ?_, [], rfl, rfl⟩
      dsimp only
      rw [h.now]
      exact hk.setEx _ _

theorem tokenPair_congr {w : World} (hnow : w'.now = w.now) (u : UUID) (d : IssueDraws) :
    w'.tokenPair env u d = w.tokenPair env u d := by
  unfold World.tokenPair
  rw [hnow]

theorem serve_login_alike {email password : String} {d : IssueDraws}
    (hc : Concerns env t e u (.login email password d))
    (h : LooksAlike env (.login email password d) e u t.world w') :
    ServedAlike e u t.world w' (serve env t.world (.login email password d))
      (serve env w' (.login email password d)) := by
  cases hc with
  | login hemail hid =>
    subst hemail
    have httl : w'.redis.ttl w'.now (loginLockKey (env.lower email)) =
        t.world.redis.ttl t.world.now (loginLockKey (env.lower email)) := by
      rw [h.now]
      exact (h.keys _ .lock).ttl
    rw [serve_login, serve_login]
    dsimp only
    rw [httl, h.byEmail email rfl]
    split
    · exact .still _
    · cases (t.world.userByEmail env (env.lower email)).filter (credentialsValid env password) with
      | none =>
        rcases failedAttempt_alike env h.now.symm (h.keys _ .attempts) with
          ⟨hf, hf'⟩ | ⟨redis, redis', hf, hf', hsame⟩
        · rw [hf, hf']
          exact .still _
        · rw [hf, hf']
          exact ⟨rfl, ⟨none, by simp, rfl, rfl⟩, hsame, [], rfl, rfl⟩
      | some user =>
        dsimp only
        split
        · exact .still _
        · rw [tokenPair_congr h.now]
          refine ⟨rfl, ⟨none, by simp, rfl, rfl⟩, fun k hk => ?_, [_, _], rfl, rfl⟩
          refine SameAt.recordToken h.now ?_
          dsimp only
          rw [h.now]
          exact hk.delete _

theorem serve_refreshAccessToken_alike {T : String} {d : IssueDraws}
    (h : LooksAlike env (.refreshAccessToken T d) e u t.world w') :
    ServedAlike e u t.world w' (serve env t.world (.refreshAccessToken T d))
      (serve env w' (.refreshAccessToken T d)) := by
  have haccepted : w'.acceptedClaims env T = t.world.acceptedClaims env T := by
    unfold World.acceptedClaims
    rw [h.claims T (.inl ⟨d, rfl⟩)]
    cases hclaims : t.world.refreshClaims env T with
    | none => rfl
    | some p => simp only [Option.filter_some, (h.keys _ (.refresh hclaims)).text h.now]
  rw [serve_refreshAccessToken, serve_refreshAccessToken, haccepted]
  cases t.world.acceptedClaims env T with
  | none => exact .still _
  | some p =>
    cases hparse : UUID.parse p.sub with
    | none =>
      simp only [hparse]
      refine ⟨rfl, ⟨none, by simp, rfl, rfl⟩, fun k hk => ?_, [], rfl, rfl⟩
      dsimp only
      rw [h.now]
      exact hk.delete _
    | some v =>
      simp only [hparse]
      rw [tokenPair_congr h.now]
      refine ⟨rfl, ⟨none, by simp, rfl, rfl⟩, fun k hk => ?_, [_, _], rfl, rfl⟩
      refine SameAt.recordToken h.now ?_
      dsimp only
      rw [h.now]
      exact (hk.delete _).srem _

theorem serve_logout_alike {T : String} (h : LooksAlike env (.logout T) e u t.world w') :
    ServedAlike e u t.world w' (serve env t.world (.logout T)) (serve env w' (.logout T)) := by
  rw [serve_logout, serve_logout, h.claims T (.inr rfl)]
  cases t.world.refreshClaims env T with
  | none => exact .still _
  | some p =>
    cases hparse : UUID.parse p.sub with
    | none =>
      simp only [hparse]
      refine ⟨rfl, ⟨none, by simp, rfl, rfl⟩, fun k hk => ?_, [], rfl, rfl⟩
      dsimp only
      rw [h.now]
      exact hk.delete _
    | some v =>
      simp only [hparse]
      refine ⟨rfl, ⟨none, by simp, rfl, rfl⟩, fun k hk => ?_, [], rfl, rfl⟩
      dsimp only
      rw [h.now]
      exact (hk.delete _).srem _

/-- What a request does depends on its own account alone. -/
theorem serve_alike (hledger : Ledger env t) (honce : OneTimeTokens t.log)
    (hc : Concerns env t e u r) (h : LooksAlike env r e u t.world w') :
    ServedAlike e u t.world w' (serve env t.world r) (serve env w' r) := by
  cases r with
  | register email password fullName d => exact serve_register_alike hc h
  | verifyEmail x => exact serve_verifyEmail_alike hledger honce hc h
  | login email password d => exact serve_login_alike hc h
  | requestPasswordReset email x => exact serve_requestPasswordReset_alike hc h
  | resetPassword x newPassword salt => exact serve_resetPassword_alike hledger honce hc h
  | refreshAccessToken T d => exact serve_refreshAccessToken_alike h
  | logout T => exact serve_logout_alike h

/-- A request touches no more in a world that looks the same to it. -/
theorem LooksAlike.touches (h : LooksAlike env r e u t.world w') (hc : Concerns env t e u r)
    {k : String} (hk : r.Touches env w' k) : r.Touches env t.world k := by
  cases hk with
  | register => exact .register
  | verifyEmail => exact .verifyEmail
  | attempts => exact .attempts
  | lock => exact .lock
  | loginToken => exact .loginToken
  | loginIndex huser =>
    cases hc with
    | login hemail hid => exact .loginIndex (h.byEmail _ hemail ▸ huser)
  | requestReset => exact .requestReset
  | reset => exact .reset
  | revoked htext hj =>
    rw [(h.keys _ .reset).text h.now] at htext
    exact .revoked htext ((h.keys _ (.revokedIndex htext)).sets ▸ hj)
  | revokedIndex htext => exact .revokedIndex ((h.keys _ .reset).text h.now ▸ htext)
  | refresh hclaims => exact .refresh (h.claims _ (.inl ⟨_, rfl⟩) ▸ hclaims)
  | refreshIndex hclaims hsub => exact .refreshIndex (h.claims _ (.inl ⟨_, rfl⟩) ▸ hclaims) hsub
  | refreshToken => exact .refreshToken
  | logout hclaims => exact .logout (h.claims _ (.inr rfl) ▸ hclaims)
  | logoutIndex hclaims hsub => exact .logoutIndex (h.claims _ (.inr rfl) ▸ hclaims) hsub

end Serving

end TaskMgtApp.Auth
