import TaskMgtApp.App.Alone
import TaskMgtApp.App.Mediation

/-!
# Every change is authorized, whatever runs beside it

Between the check of a call and its commit others go on, and administration too. What a step
of a call changes are rows of the account that the call was told was active, and the access
token it has shown was issued to a session of that account, or was there at the start. A
suspension takes hold at once, but for the calls that have passed their check.
-/
namespace TaskMgtApp.App

open TaskMgtApp.Common
open TaskMgtApp.Lib.Program TaskMgtApp.Lib.Program.Prog
open TaskMgtApp.Lib.Interleaving TaskMgtApp.Lib.Warrant
open TaskMgtApp.Auth (User UserWrite PairIssued)

/-! ## What a job holds of projects and tasks -/

/-- What a job holds of projects and tasks: nothing before it acts, and then what its user may
write. -/
def WorkSession (env : Env) (job : Job) (l : Work.Session) (w : Work.World) : Stage → Prop
  | .accounts _ => l.written = [] ∧ l.dirty = [] ∧ ∀ r, job.request? env = some r → r.FreshIn w
  | .acting h user φ => ∃ c r, job = .call c ∧ job.request? env = some r ∧ ActsAs env h c user ∧
      Work.OwnSession user.id r φ l w

/-- The draws of the calls are new, and tell the calls apart. -/
structure FreshJobs {ι : Type} (env : Env) (w : Work.World) (jobs : ι → Job) : Prop where
  fresh : ∀ i, ∀ r ∈ (jobs i).request? env, r.FreshIn w
  apart : ∀ i k, i ≠ k → ∀ r ∈ (jobs i).request? env, ∀ r' ∈ (jobs k).request? env, r.Apart r'

instance {ι : Type} [Fintype ι] [DecidableEq ι] (env : Env) (w : Work.World) (jobs : ι → Job) :
    Decidable (FreshJobs env w jobs) :=
  decidable_of_iff ((∀ i, ∀ r ∈ (jobs i).request? env, r.FreshIn w) ∧
      ∀ i k, i ≠ k → ∀ r ∈ (jobs i).request? env, ∀ r' ∈ (jobs k).request? env, r.Apart r')
    ⟨fun h => ⟨h.1, h.2⟩, fun h => ⟨h.fresh, h.apart⟩⟩

section Statements
variable {env : Env} {job : Job} {st st' : Stage} {l : Work.Session} {w w' : Work.World} {s : State}

theorem WorkSession.same {l' : Work.Session} (h : WorkSession env job l w st)
    (hw : l'.written = l.written) (hd : l'.dirty = l.dirty) : WorkSession env job l' w st := by
  cases st with
  | accounts heard =>
    obtain ⟨hwritten, hdirty, hfresh⟩ := h
    exact ⟨hw.trans hwritten, hd.trans hdirty, hfresh⟩
  | acting heard user φ =>
    obtain ⟨c, r, hjob, hr, hacts, hown⟩ := h
    exact ⟨c, r, hjob, hr, hacts, hown.same hw hd⟩

/-- The rows of others may come and change. -/
theorem WorkSession.grows (h : WorkSession env job l w st) (hgrows : w.Grows w')
    (hfresh : ∀ r, job.request? env = some r → r.FreshIn w → r.FreshIn w') :
    WorkSession env job l w' st := by
  cases st with
  | accounts heard =>
    obtain ⟨hwritten, hdirty, hf⟩ := h
    exact ⟨hwritten, hdirty, fun r hr => hfresh r hr (hf r hr)⟩
  | acting heard user φ =>
    obtain ⟨c, r, hjob, hr, hacts, hown⟩ := h
    exact ⟨c, r, hjob, hr, hacts, hown.grows hgrows (hfresh r hr)⟩

/-- A statement is one of a job that acts for a user, or a commit or rollback of nothing. -/
theorem StageMove.work_inv {cmd : Work.Cmd} (hm : StageMove env job st (.work cmd) s st')
    (h : WorkSession env job s.1.work w st) :
    (∃ c r user φ φ', job = .call c ∧ job.request? env = some r ∧ ActsAs env st.heard c user ∧
      Work.OwnSession user.id r φ s.1.work w ∧
      Work.OwnMove user.id r φ cmd (s.1.work, s.2.work) φ' ∧ st' = .acting st.heard user φ') ∨
    (st' = st ∧ (∃ heard, st = .accounts heard) ∧ (cmd = .commit ∨ cmd = .rollback)) := by
  cases hm with
  | @act heard c r user φ cmd s hjob hr hacts hm =>
    obtain ⟨hwritten, hdirty, hfresh⟩ := h
    exact .inl ⟨c, r, user, .start, φ, hjob, hr, hacts, .idle (.inl rfl) hwritten hdirty (hfresh r hr),
      hm, rfl⟩
  | @work heard r user φ φ' cmd s hr hm =>
    obtain ⟨c, r', hjob, hr', hacts, hown⟩ := h
    obtain rfl := Option.some.inj (hr.symm.trans hr')
    exact .inl ⟨c, r, user, φ, φ', hjob, hr, hacts, hown, hm, rfl⟩
  | leave hcmd => exact .inr ⟨rfl, ⟨_, rfl⟩, hcmd⟩

/-- What the effects of a user keep, a statement keeps. -/
theorem WorkSession.exec_induction {P : Work.World → Prop} {cmd : Work.Cmd}
    (h : WorkSession env job s.1.work s.2.work st) (hvalid : s.2.work.Valid)
    (hm : StageMove env job st (.work cmd) s st')
    (hstep : ∀ c r user v x, job = .call c → job.request? env = some r → ActsAs env st.heard c user →
      v.Valid → Work.Effect v user.id r (v.write x) → P v → P (v.write x))
    (hP : P s.2.work) : P (Work.exec env.work cmd (s.1.work, s.2.work)).2.2 := by
  rcases hm.work_inv h with ⟨c, r, user, φ, φ', hjob, hr, hacts, hown, hmove, -⟩ |
    ⟨-, ⟨heard, rfl⟩, hcmd⟩
  · exact hown.exec_induction env.work hvalid hmove
      (fun v x hv _ he => hstep c r user v x hjob hr hacts hv he) hP
  · obtain ⟨hwritten, hdirty, -⟩ := h
    rcases hcmd with rfl | rfl
    · rw [commit_nothing env.work hwritten hdirty]
      exact hP
    · exact hP

/-- A statement keeps what its session may hold. -/
theorem WorkSession.exec {cmd : Work.Cmd} (h : WorkSession env job s.1.work s.2.work st)
    (hvalid : s.2.work.Valid) (hm : StageMove env job st (.work cmd) s st') :
    WorkSession env job (Work.exec env.work cmd (s.1.work, s.2.work)).2.1
      (Work.exec env.work cmd (s.1.work, s.2.work)).2.2 st' := by
  rcases hm.work_inv h with ⟨c, r, user, φ, φ', hjob, hr, hacts, hown, hmove, rfl⟩ |
    ⟨rfl, ⟨heard, rfl⟩, hcmd⟩
  · exact ⟨c, r, hjob, hr, hacts, hown.exec env.work hvalid hmove⟩
  · obtain ⟨hwritten, hdirty, hfresh⟩ := h
    rcases hcmd with rfl | rfl
    · rw [commit_nothing env.work hwritten hdirty]
      exact ⟨rfl, rfl, hfresh⟩
    · exact ⟨rfl, rfl, hfresh⟩

end Statements

/-! ## Every run -/

section Runs
variable {ι : Type} [DecidableEq ι] {env : Env} {w : World} {jobs : ι → Job} {φ : ι → Stage}
  {c : Threads ι} {i : ι} {st : Stage} {cmd : Cmd} {k : Except Exc cmd.Val → AppM Result} {u : UUID}

/-- Beside the requests only the clock of projects and tasks moves. -/
theorem exists_drift_work (v : World) (d : Drift) :
    ∃ now, (v.drift d).work = { v.work with now := now } := by
  cases d with
  | wait micros => exact ⟨_, rfl⟩
  | setActive id isActive => exact ⟨v.work.now, rfl⟩
  | softDelete id => exact ⟨v.work.now, rfl⟩

theorem rowsOf_drift (v : World) (d : Drift) (u : UUID) :
    rowsOf (v.drift d).work u = rowsOf v.work u := by
  obtain ⟨now, hwork⟩ := exists_drift_work v d
  rw [hwork]
  rfl

/-- All has an origin, the constraints of the tables hold, a call that acts for a user has rows
of that user in its session, and a registration the row that it draws. -/
structure Guarded (env : Env) (w : World) (jobs : ι → Job) (φ : ι → Stage) (c : Threads ι) : Prop
    extends Traced env w jobs φ c where
  valid : c.world.work.Valid
  sessions : ∀ i, WorkSession env (jobs i) (c.threads i).locals.work c.world.work (φ i)
  inserts : ∀ i row, .insert row ∈ (c.threads i).locals.accounts →
    ∃ email password name d, jobs i = .auth (.register email password name d) ∧ row.id = d.userId

theorem guarded_beside (hvalid : w.work.Valid) (hjobs : FreshJobs env w.work jobs) :
    Guarded env w jobs (fun _ => .accounts []) (beside env w jobs) where
  toTraced := traced_beside env w jobs
  valid := hvalid
  sessions i := ⟨rfl, rfl, hjobs.fresh i⟩
  inserts _ _ h := absurd h List.not_mem_nil

theorem Guarded.drift (h : Guarded env w jobs φ c) (d : Drift) :
    Guarded env w jobs φ (c.step (machine env) (.drift d)) := by
  obtain ⟨now, hwork⟩ := exists_drift_work c.world d
  refine ⟨h.toTraced.drift d, ?_, fun i => ?_, h.inserts⟩
  · change (c.world.drift d).work.Valid
    rw [hwork]
    exact h.valid.at
  · change WorkSession env (jobs i) (c.threads i).locals.work (c.world.drift d).work (φ i)
    rw [hwork]
    exact (h.sessions i).grows
      ⟨fun p hp => ⟨p, hp, rfl, rfl⟩, fun t ht => ⟨t, ht, rfl, rfl⟩⟩ fun r _ hf => ⟨hf.project, hf.task⟩

/-- A row to be inserted was in the session before, or this command has added it. -/
theorem insert_exec {l : Auth.Session} {v : Auth.World} {cmd : Auth.Cmd} {row : User}
    (h : .insert row ∈ (Auth.exec env.auth cmd (l, v)).2.1) :
    .insert row ∈ l ∨ ∃ email hash name, cmd = .add row.id email hash name := by
  cases cmd with
  | add id email hash name =>
    simp only [Auth.exec] at h
    split at h
    · rcases List.mem_append.mp h with hold | hnew
      · exact .inl hold
      · obtain rfl := UserWrite.insert.inj (List.mem_singleton.mp hnew)
        exact .inr ⟨email, hash, name, rfl⟩
    · exact .inl h
  | assignEmailVerified user | assignPasswordHash user hash =>
    rcases List.mem_append.mp h with hold | hnew
    · exact .inl hold
    · cases List.mem_singleton.mp hnew
  | commit | rollback => cases h
  | incr key =>
    simp only [Auth.exec] at h
    split at h <;> exact .inl h
  | decodeToken T =>
    rw [Auth.exec_decodeToken] at h
    exact .inl h
  | _ => exact .inl h

/-- Only the registration that draws its id has a row to insert. -/
theorem Guarded.inserts_issue (h : Guarded env w jobs φ c)
    (hm : StageMove env (jobs i) (φ i) cmd ((c.threads i).locals, c.world) st) {j : ι} {row : User}
    (hrow : .insert row ∈ ((c.issue (machine env) i cmd k).threads j).locals.accounts) :
    ∃ email password name d, jobs j = .auth (.register email password name d) ∧ row.id = d.userId := by
  by_cases hj : j = i
  · subst hj
    rw [Config.threads_issue_self] at hrow
    cases cmd with
    | work cmd => exact h.inserts j row hrow
    | auth cmd =>
      rcases insert_exec hrow with hold | ⟨email, hash, name, rfl⟩
      · exact h.inserts j row hold
      · have hmay := hm.auth_inv.1
        cases hjob : jobs j with
        | call call =>
          rw [hjob] at hmay
          obtain ⟨_, _, hc | ⟨_, _, _, _, _, hc⟩⟩ := hmay <;> cases hc
        | auth r =>
          rw [hjob] at hmay
          obtain ⟨e, password, d, rfl, hid, -, -⟩ := hmay
          exact ⟨e, password, name, d, rfl, hid⟩
  · rw [Config.threads_issue_of_ne hj] at hrow
    exact h.inserts j row hrow

/-- A command changes the tables by effects of a user for whom the call acts. -/
theorem Guarded.issue_induction {P : Work.World → Prop} (h : Guarded env w jobs φ c)
    (hm : StageMove env (jobs i) (φ i) cmd ((c.threads i).locals, c.world) st)
    (hstep : ∀ call r user v x, jobs i = .call call → (jobs i).request? env = some r →
      ActsAs env (told c i) call user → v.Valid → Work.Effect v user.id r (v.write x) → P v →
      P (v.write x)) (hP : P c.world.work) :
    P (c.issue (machine env) i cmd k).world.work := by
  cases cmd with
  | auth cmd => exact hP
  | work cmd =>
    have hs := h.sessions i
    rw [← h.heard i] at hstep
    exact hs.exec_induction (s := ((c.threads i).locals, c.world)) h.valid hm hstep hP

theorem Guarded.issue (hjobs : FreshJobs env w.work jobs) (h : Guarded env w jobs φ c)
    (hm : StageMove env (jobs i) (φ i) cmd ((c.threads i).locals, c.world) st) :
    Guarded env w jobs (Function.update φ i st) (c.issue (machine env) i cmd k) where
  toTraced := h.toTraced.issue hm
  valid := h.issue_induction hm (fun _ _ _ _ _ _ _ _ hv he _ => he.valid hv) h.valid
  sessions j := by
    by_cases hj : j = i
    · subst hj
      rw [Function.update_self, Config.threads_issue_self]
      cases cmd with
      | auth cmd =>
        obtain ⟨-, ⟨heard, hφ⟩, rfl⟩ := hm.auth_inv
        have hs := h.sessions j
        rw [hφ] at hs
        have hopen : WorkSession env (jobs j)
            (if isStatement cmd then (c.threads j).locals.work.begin c.world.work
              else (c.threads j).locals.work) c.world.work (.accounts heard) := by
          split
          · exact hs.same rfl rfl
          · exact hs
        exact hopen
      | work cmd =>
        exact WorkSession.exec (s := ((c.threads j).locals, c.world)) (h.sessions j) h.valid hm
    · rw [Function.update_of_ne hj, Config.threads_issue_of_ne hj]
      refine (h.sessions j).grows ?_ fun r' hr' hf => ?_
      · exact h.issue_induction (P := fun v => c.world.work.Grows v) hm
          (fun _ _ _ _ _ _ _ _ _ he hg => hg.trans he.grows) (.refl _)
      · exact h.issue_induction (P := fun v => r'.FreshIn v) hm
          (fun _ r _ _ _ _ hr _ _ he hv =>
            he.freshIn (hjobs.apart i j (Ne.symm hj) r hr r' hr') hv) hf
  inserts _ _ hrow := h.inserts_issue hm hrow

/-- A command leaves the rows of a user as they are, unless its call acts for the user. -/
theorem Guarded.rows_issue (h : Guarded env w jobs φ c)
    (hm : StageMove env (jobs i) (φ i) cmd ((c.threads i).locals, c.world) st) (u : UUID) :
    rowsOf (c.issue (machine env) i cmd k).world.work u = rowsOf c.world.work u ∨
      ∃ call user, jobs i = .call call ∧ ActsAs env (told c i) call user ∧ user.id = u := by
  by_cases hacts : ∃ call user, jobs i = .call call ∧ ActsAs env (told c i) call user ∧ user.id = u
  · exact .inr hacts
  · refine .inl (h.issue_induction (P := fun v => rowsOf v u = rowsOf c.world.work u) hm ?_ rfl)
    intro call r user v x hcall _ hacts' hv he hP
    have hne : user.id ≠ u := fun hid => hacts ⟨call, user, hcall, hacts', hid⟩
    rw [← hP, rowsOf, rowsOf, he.view hv hne]

theorem guarded_run (hvalid : w.work.Valid) (hjobs : FreshJobs env w.work jobs)
    (schedule : List (Act ι Drift)) :
    ∃ φ, AllObey (machine env) (fun i => StageMove env (jobs i)) (fun _ _ _ => True) φ
        ((beside env w jobs).run (machine env) schedule) ∧
      Guarded env w jobs φ ((beside env w jobs).run (machine env) schedule) :=
  run_invariant_forall (J := Guarded env w jobs) (fun _ _ d _ h => h.drift d)
    (fun _ _ _ _ _ _ _ h _ hm => h.issue hjobs hm) (all_obey env w jobs)
    (guarded_beside hvalid hjobs) schedule

/-! ### Changes are authorized -/

/-- The access token `T` is one that a login or a refresh of `u` has issued. Its session goes back
to a login, or to a refresh token that was live at the start. -/
def AccessFrom (env : Env) (w : Auth.World) (jobs : ι → Job) (told : ι → Hearing) (T : String)
    (u : UUID) : Prop :=
  ∃ j r pair, jobs j = .auth r ∧ PairIssued env.auth r u pair ∧ T = pair.1 ∧
    Descends env w jobs told j u

/-- The call of `i` may change the rows of `u`: it has shown an access token of `u` that was there
at the start or that a session of `u` was issued, and the account that it has read was active. -/
structure Authorized (env : Env) (w : Auth.World) (jobs : ι → Job) (told : ι → Hearing) (i : ι)
    (call : Call) (u : UUID) : Prop where
  job : jobs i = .call call
  token : ∃ token p, env.bearer call.authorization = some token ∧
    (told i).Told (.decodeToken token) p ∧ p.type = .access ∧ p.sub = u.str ∧
    (token ∈ w.issued ∨ AccessFrom env w jobs told token u)
  account : ∃ user, (told i).Told (.getById u) (some user) ∧ user.id = u ∧ user.isActive = true ∧
    user.deletedAt = none ∧ Vouched env w jobs told user

omit [DecidableEq ι] in
/-- An access token that was sent is of the account that its claims name. -/
theorem Sent.access {told : ι → Hearing} {v : Auth.World} {T : String} {p : Auth.Claims}
    (h : Sent env v jobs told T) (hp : env.auth.decode T = some p) (htype : p.type = .access)
    (hsub : p.sub = u.str) : T ∈ v.issued ∨ AccessFrom env v jobs told T u := by
  cases h with
  | stored h => exact .inl h
  | @issued j r u' pair _ hr hpair hT h =>
    rcases hT with rfl | rfl
    · obtain ⟨p', hp', -, hsub'⟩ := hpair.access
      obtain rfl := Option.some.inj (hp.symm.trans hp')
      obtain rfl := UUID.str_inj.mp (hsub.symm.trans hsub')
      exact .inr ⟨j, r, pair, hr, hpair, rfl, h⟩
    · obtain ⟨q, hq, hminted⟩ := hpair.refresh
      obtain rfl := Option.some.inj (hp.symm.trans hq)
      rw [hminted.type] at htype
      cases htype

omit [DecidableEq ι] in
theorem ActsAs.authorized {told : ι → Hearing} {v : Auth.World} {call : Call} {user : User}
    (hears : Hears env v jobs told) (hcall : jobs i = .call call)
    (h : ActsAs env (told i) call user) : Authorized env v jobs told i call user.id := by
  obtain ⟨⟨token, p, id, hbearer, hp, htype, hsub, huser⟩, hactive⟩ := h
  obtain ⟨hrow, rfl, hdel⟩ := hears.byId i id user huser
  obtain ⟨hdecode, hsent⟩ := hears.decoded i token p hp
  exact ⟨hcall, ⟨token, p, hbearer, hp, htype, hsub, hsent.access hdecode htype hsub⟩,
    user, huser, rfl, hactive, hdel, hrow⟩

/-- A command that changes rows of `u` is one of an authorized call. -/
theorem Guarded.authorized (h : Guarded env w jobs φ c)
    (hm : StageMove env (jobs i) (φ i) cmd ((c.threads i).locals, c.world) st)
    (hne : rowsOf (c.issue (machine env) i cmd k).world.work u ≠ rowsOf c.world.work u) :
    ∃ call, Authorized env w.accounts jobs (told c) i call u := by
  rcases h.rows_issue (k := k) hm u with hsame | ⟨call, user, hcall, hacts, rfl⟩
  · exact absurd hsame hne
  · exact ⟨call, hacts.authorized h.hears hcall⟩

/-- `n` turns of the call `i`. -/
def turnsOf (i : Bool) (n : Nat) : List (Act Bool Drift) := List.replicate n (.step i)

/-- Every row of `u` is deactivated or deleted. -/
def Barred (u : UUID) (users : List User) : Prop :=
  ∀ row ∈ users, row.id = u → row.isActive = true → row.deletedAt ≠ none

instance (u : UUID) (users : List User) : Decidable (Barred u users) :=
  inferInstanceAs (Decidable (∀ row ∈ users, _))

section Barred
variable {users : List User} {l : Auth.Session} {v : Auth.World}

/-- What makes no row of `u` active that was not. -/
theorem Barred.map (h : Barred u users) {f : User → User} (hid : ∀ row, (f row).id = row.id)
    (hf : ∀ row, row.id = u → (f row).isActive = true → (f row).deletedAt = none →
      row.isActive = true ∧ row.deletedAt = none) : Barred u (users.map f) := by
  intro row hrow hu hactive hdel
  obtain ⟨row₀, hrow₀, rfl⟩ := List.mem_map.mp hrow
  have hu₀ : row₀.id = u := (hid row₀).symm.trans hu
  obtain ⟨hactive₀, hdel₀⟩ := hf row₀ hu₀ hactive hdel
  exact h row₀ hrow₀ hu₀ hactive₀ hdel₀

theorem Barred.applyRow (h : Barred u users) (now : Nat) (write : UserWrite) :
    Barred u (users.map fun row => write.applyRow now row) := by
  refine h.map (fun row => (Auth.applyRow_keeps now row write).1) fun row _ hactive hdel => ?_
  obtain ⟨-, -, hactive₀, hdel₀⟩ := Auth.applyRow_keeps now row write
  exact ⟨hactive₀ ▸ hactive, hdel₀ ▸ hdel⟩

theorem Barred.apply {write : UserWrite} (h : Barred u users)
    (hw : ∀ row, write = .insert row → row.id ≠ u) (now : Nat) :
    Barred u (write.apply now users) := by
  cases write with
  | insert new =>
    intro row hrow hid hactive
    rcases List.mem_append.mp hrow with hrow | hrow
    · exact h row hrow hid hactive
    · obtain rfl := List.mem_singleton.mp hrow
      exact absurd hid (hw row rfl)
  | emailVerified loaded => exact h.applyRow now (.emailVerified loaded)
  | passwordHash loaded hash => exact h.applyRow now (.passwordHash loaded hash)

theorem Barred.commit (h : Barred u users) (hl : ∀ row, .insert row ∈ l → row.id ≠ u) (now : Nat) :
    Barred u (l.foldl (UserWrite.apply now) users) := by
  induction l generalizing users with
  | nil => exact h
  | cons write l ih =>
    refine ih (h.apply (fun row hw => hl row ?_) now) fun row hrow =>
      hl row (List.mem_cons_of_mem _ hrow)
    exact hw ▸ List.mem_cons_self

theorem Barred.exec (h : Barred u v.users) (hl : ∀ row, .insert row ∈ l → row.id ≠ u)
    (cmd : Auth.Cmd) :
    Barred u (Auth.exec env.auth cmd (l, v)).2.2.users := by
  by_cases hc : cmd = .commit
  · subst hc
    exact h.commit hl v.now
  · rw [Auth.exec_users (.inl hc)]
    exact h

/-- Nobody is told that the account is active. -/
theorem Barred.not_active (h : Barred u v.users) (hl : ∀ row, .insert row ∈ l → row.id ≠ u)
    {user : User} (hreply : (Auth.exec env.auth (.getById u) (l, v)).1 = .ok (some user)) :
    user.isActive ≠ true := by
  intro hactive
  have hfound := Except.ok.inj hreply
  have hp := List.find?_some hfound
  simp only [Bool.and_eq_true, beq_iff_eq, Option.isNone_iff_eq_none] at hp
  rcases List.mem_append.mp (List.mem_of_find?_eq_some hfound) with hrow | hrow
  · exact h user hrow hp.2 hactive hp.1
  · obtain ⟨write, hwrite, hw⟩ := List.mem_filterMap.mp hrow
    cases write with
    | insert row =>
      obtain rfl := Option.some.inj hw
      exact hl row hwrite hp.2
    | _ => cases hw

/-- Only a reactivation lifts the bar. -/
theorem Barred.drift {v : World} (h : Barred u v.accounts.users) {d : Drift}
    (hd : d ≠ .setActive u true) :
    Barred u (v.drift d).accounts.users := by
  cases d with
  | wait micros => exact h
  | setActive id isActive =>
    refine h.map (fun row => by split <;> rfl) fun row hu hactive hdel => ?_
    split at hactive
    · rename_i hid
      have hon : isActive = true := hactive
      exact absurd (by rw [← hid, hu, hon]) hd
    · rename_i hid
      rw [if_neg hid] at hdel
      exact ⟨hactive, hdel⟩
  | softDelete id =>
    refine h.map (fun row => by split <;> rfl) fun row _ hactive hdel => ?_
    split at hdel
    · cases hdel
    · rename_i hid
      rw [if_neg hid] at hactive
      exact ⟨hactive, hdel⟩

end Barred

/-- `u` has been barred since `c₀`: the calls that were told that the account is active had ended
by then, and the rows are those of `c₀`. -/
structure BarredSince (jobs : ι → Job) (c₀ : Threads ι) (u : UUID) (c : Threads ι) : Prop where
  barred : Barred u c.world.accounts.users
  passed : ∀ i call user, jobs i = .call call → (told c i).Told (.getById u) (some user) →
    user.isActive = true → (c₀.outcome i).isSome
  ended : ∀ i, (c₀.outcome i).isSome → (c.outcome i).isSome
  rows : rowsOf c.world.work u = rowsOf c₀.world.work u

theorem BarredSince.drift {c₀ : Threads ι} (h : BarredSince jobs c₀ u c) {d : Drift}
    (hd : d ≠ .setActive u true) : BarredSince jobs c₀ u (c.step (machine env) (.drift d)) where
  barred := h.barred.drift hd
  passed := h.passed
  ended := h.ended
  rows := (rowsOf_drift c.world d u).trans h.rows

theorem BarredSince.issue {c₀ : Threads ι} (h : BarredSince jobs c₀ u c) (hg : Guarded env w jobs φ c)
    (hdraws : ∀ i email password name d, jobs i = .auth (.register email password name d) →
      d.userId = u → (c₀.outcome i).isSome)
    (hp : (c.threads i).prog = .call cmd k)
    (hm : StageMove env (jobs i) (φ i) cmd ((c.threads i).locals, c.world) st) :
    BarredSince jobs c₀ u (c.issue (machine env) i cmd k) := by
  -- the job has just issued a command
  have hrunning : ¬ (c₀.outcome i).isSome := by
    intro hsome
    have hended := h.ended i hsome
    rw [Config.outcome, hp] at hended
    cases hended
  have hinserts : ∀ row, .insert row ∈ (c.threads i).locals.accounts → row.id ≠ u := by
    intro row hrow hid
    obtain ⟨email, password, name, d, hr, hdraw⟩ := hg.inserts i row hrow
    exact hrunning (hdraws i email password name d hr (hdraw.symm.trans hid))
  constructor
  case barred =>
    cases cmd with
    | auth cmd => exact h.barred.exec hinserts cmd
    | work cmd => exact h.barred
  case passed =>
    intro j call user hcall ht hactive
    cases cmd with
    | auth cmd =>
      rw [told_issue_auth] at ht
      rcases told_hearing ht with ⟨-, hreply⟩ | hold
      · exact absurd hactive (h.barred.not_active hinserts hreply)
      · exact h.passed j call user hcall hold hactive
    | work cmd =>
      rw [told_issue_work] at ht
      exact h.passed j call user hcall ht hactive
  case ended =>
    intro j hsome
    have hj : j ≠ i := by
      rintro rfl
      exact hrunning hsome
    rw [Config.outcome, Config.threads_issue_of_ne hj]
    exact h.ended j hsome
  case rows =>
    refine Eq.trans ?_ h.rows
    by_contra hne
    obtain ⟨call, hauthorized⟩ := hg.authorized hm hne
    obtain ⟨user, huser, -, hactive, -⟩ := hauthorized.account
    exact hrunning (h.passed i call user hauthorized.job huser hactive)

/-- From the moment an account is deactivated or deleted, and until it is reactivated, its rows stay
as they are and no more calls are authorized for it, but for those that have read the account before
and have not ended. The registration that creates the account has ended. -/
theorem suspension_takes_hold (env : Env) (w : World) (jobs : ι → Job) (hvalid : w.work.Valid)
    (hjobs : FreshJobs env w.work jobs) (u : UUID) (before after : List (Act ι Drift))
    (hafter : .drift (.setActive u true) ∉ after) :
    let c := (beside env w jobs).run (machine env) before
    Barred u c.world.accounts.users →
    (∀ i email password name d, jobs i = .auth (.register email password name d) → d.userId = u →
      (c.outcome i).isSome) →
    (∀ i call user, jobs i = .call call → (told c i).Told (.getById u) (some user) →
      user.isActive = true → (c.outcome i).isSome) →
      let c' := c.run (machine env) after
      rowsOf c'.world.work u = rowsOf c.world.work u ∧
        ∀ i call, Authorized env w.accounts jobs (told c') i call u → (c.outcome i).isSome := by
  intro c hbarred hdraws hpassed c'
  obtain ⟨φ, hobey, hg⟩ := guarded_run hvalid hjobs before
  have hstays : c.Along (machine env) (fun _ a => a ≠ .drift (.setActive u true)) after := by
    refine Config.along_of_forall_mem fun a ha heq => ?_
    subst heq
    exact hafter ha
  obtain ⟨φ', -, ⟨-, h⟩, -⟩ := run_invariant
    (J := fun φ d => Guarded env w jobs φ d ∧ BarredSince jobs c u d)
    (fun _ _ d _ h hd => ⟨h.1.drift d, h.2.drift fun heq => hd (congrArg Act.drift heq)⟩)
    (fun _ _ _ _ _ _ _ h hp hm _ => ⟨h.1.issue hjobs hm, h.2.issue h.1 hdraws hp hm⟩) hobey
    ⟨hg, hbarred, hpassed, fun _ h => h, rfl⟩ hstays
  refine ⟨h.rows, fun i call hauthorized => ?_⟩
  obtain ⟨user, huser, -, hactive, -⟩ := hauthorized.account
  exact h.passed i call user hauthorized.job huser hactive

/-- Ada creates one project and is deactivated. -/
def adaOut : List (Act Bool Drift) := turnsOf false 6 ++ [.drift (.setActive Auth.ada.id false)]

/-- She tries to create another one. -/
theorem suspension_takes_hold_ada :
    let c := (beside plainEnv adaIn adaCalls).run (machine plainEnv) adaOut
    let c' := c.run (machine plainEnv) (turnsOf true 6)
    rowsOf c'.world.work Auth.ada.id = rowsOf c.world.work Auth.ada.id ∧
      ∀ i call, Authorized plainEnv adaIn.accounts adaCalls (told c') i call Auth.ada.id →
        (c.outcome i).isSome := by
  refine suspension_takes_hold plainEnv adaIn adaCalls (by decide +kernel) (by decide +kernel)
    Auth.ada.id adaOut (turnsOf true 6) (by simp [turnsOf]) (by decide +kernel)
    (fun i _ _ _ _ h => by cases h) ?_
  intro i call user _ ht hactive
  cases i with
  | false => decide +kernel
  | true =>
    have hsilent : told ((beside plainEnv adaIn adaCalls).run (machine plainEnv) adaOut) true = [] :=
      List.isEmpty_iff.mp (by decide +kernel)
    rw [Hearing.Told, hsilent] at ht
    cases ht

end Runs

end TaskMgtApp.App
