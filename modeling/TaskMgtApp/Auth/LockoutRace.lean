import TaskMgtApp.Auth.Lockout
import TaskMgtApp.Auth.LoginMoves
import TaskMgtApp.Auth.Instance
import Mathlib.Data.Fintype.Powerset

/-!
# The lockout beside itself

`login` tests the lock first and counts a failed check with later commands. Any
number of calls may pass the test before the first of them is counted, so the
threshold bounds nothing. It bounds the checks of wrong passwords in every
window of one lockout when each test that a wrong password passes leaves room
for the failures already counted and those under way, no success comes in the
middle of a lock-down, and the counter does not run out between the INCR and the
EXPIRE of a call.
-/
namespace TaskMgtApp.Auth

open TaskMgtApp.Common
open TaskMgtApp.Lib.Program TaskMgtApp.Lib.Program.Prog
open TaskMgtApp.Lib.Interleaving
open TaskMgtApp.Lib.ExpiringStore

/-! ## What is counted and what is asked -/

/-- The event is the check of a wrong password for `e`. -/
def FailedCheck {ι : Type} (env : Env) (e password : String) :
    Lib.Interleaving.Event Cmd.Val Exc World ι → Prop
  | ⟨_, .getByEmail e', .ok user, _⟩ => e' = e ∧ user.filter (credentialsValid env password) = none
  | _ => False

/-- The event lies in the half-open window of one lockout from second `s`. -/
def WithinLockout {ι : Type} (env : Env) (s : Nat)
    (ev : Lib.Interleaving.Event Cmd.Val Exc World ι) : Prop :=
  s ≤ ev.before.now ∧ ev.before.now < s + env.settings.lockoutSeconds

/-- Call `i` has checked a wrong password in the window from second `s`. -/
def ChecksWrong {ι : Type} (env : Env) (e : String) (password : ι → String) (c : Threads ι)
    (s : Nat) (i : ι) : Prop :=
  ∃ ev ∈ c.log, ev.thread = i ∧ FailedCheck env e (password i) ev ∧ WithinLockout env s ev

/-- No login has passed its check in the window from second `s`. -/
def NoSuccess {ι : Type} (env : Env) (e : String) (c : Threads ι) (s : Nat) : Prop :=
  ∀ ev ∈ c.log, ev.command = .delete {loginAttemptsKey e, loginLockKey e} → ¬ WithinLockout env s ev

/-- The failed checks the counter shows. -/
def World.failedChecks (w : World) (e : String) : Nat :=
  match w.redis.look w.now (loginAttemptsKey e) with
  | some c => (c.value.toInt?.getD 0).toNat
  | none => 0

/-- Call `i` is past the lock test and about to fail its check, or to count a failed one. -/
def UnderWay {ι : Type} (env : Env) (e : String) (password : ι → String) (c : Threads ι) (i : ι) :
    Prop :=
  (c.next i = some (.getByEmail e) ∧ WrongFor env e (password i) c.world) ∨
    c.next i = some (.incr (loginAttemptsKey e))

/-- Call `i` is about to set the lock, or to delete the counter after it. -/
def LockingDown {ι : Type} (env : Env) (e : String) (c : Threads ι) (i : ι) : Prop :=
  c.next i = some (.set (loginLockKey e) "1" env.settings.lockoutSeconds) ∨
    c.next i = some (.delete {loginAttemptsKey e})

/-- A lock test that a wrong password passes leaves room for its own call beside the
failures counted and under way, and no call is locking down. No success clears a full
counter, or clears anything while a call is locking down. The counter does not run out
while a call that has raised it has not extended it yet. -/
def LeavesRoom {ι : Type} (env : Env) (e : String) (password : ι → String) (c : Threads ι) :
    Act ι Nat → Prop
  | .step i =>
      (c.next i = some (.ttl (loginLockKey e)) →
        ¬ 0 < c.world.redis.ttl c.world.now (loginLockKey e) →
        WrongFor env e (password i) c.world →
        (∀ S : Finset ι, (∀ j ∈ S, UnderWay env e password c j) →
          c.world.failedChecks e + S.card < env.settings.loginMaxAttempts) ∧
        ∀ j, ¬ LockingDown env e c j) ∧
      (c.next i = some (.delete {loginAttemptsKey e, loginLockKey e}) →
        c.world.failedChecks e < env.settings.loginMaxAttempts ∧ ∀ j, ¬ LockingDown env e c j)
  | .drift seconds => ∀ j,
      c.next j = some (.expire (loginAttemptsKey e) env.settings.lockoutSeconds) →
      (c.world.redis.look c.world.now (loginAttemptsKey e)).isSome →
      (c.world.redis.look (c.world.now + seconds) (loginAttemptsKey e)).isSome

/-! ## The invariant -/

section Invariant
variable {ι : Type} [DecidableEq ι]

/-- The counter is there at every second before `t` if nothing is written. -/
def CounterUntil (w : World) (e : String) (t : Nat) : Prop :=
  ∀ later, w.now ≤ later → later < t → (w.redis.look later (loginAttemptsKey e)).isSome

/-- The lock is there at every second before `t` if nothing is written. -/
def LockedUntil (w : World) (e : String) (t : Nat) : Prop :=
  ∀ later, w.now ≤ later → later < t → 0 < w.redis.ttl later (loginLockKey e)

/-- The counter shows `n`, the calls of `F` are under way, and there is room for both.
A call that closes the account down is alone. -/
structure Tally (env : Env) (e : String) (password : ι → String) (φ : ι → CheckPhase) (w : World)
    (n : Nat) (F : Finset ι) : Prop where
  counts : Counts w e n
  underWay : ∀ i, i ∈ F ↔ (φ i).underWay env e (password i) w
  room : n + F.card ≤ env.settings.loginMaxAttempts
  empty : ∀ i, (φ i).closing env.settings.loginMaxAttempts → F = ∅
  alone : ∀ i j, (φ i).closing env.settings.loginMaxAttempts →
    (φ j).closing env.settings.loginMaxAttempts → i = j
  full : ∀ i m, φ i = .counted m → (env.settings.loginMaxAttempts : Int) ≤ m →
    n = env.settings.loginMaxAttempts

/-- The log tells the time, and which calls have checked a wrong password. -/
structure Noted (env : Env) (e : String) (password : ι → String) (φ : ι → CheckPhase)
    (c : Threads ι) : Prop where
  past : ∀ ev ∈ c.log, ev.before.now ≤ c.world.now
  failed : ∀ i, (φ i).failed ↔ ∃ ev ∈ c.log, ev.thread = i ∧ FailedCheck env e (password i) ev

/-- The failed checks `C` of a window that ends at second `t` are counted or about to be,
and the counter lasts until the window ends. -/
structure Tracked (e : String) (φ : ι → CheckPhase) (w : World) (n : Nat) (F C : Finset ι)
    (t : Nat) : Prop where
  enough : (C \ F).card ≤ n
  kept : C ⊆ F ∨ CounterUntil w e t ∨ ∃ j m, φ j = .counted m
  clearing : ∀ i, φ i = .clearing → C = ∅

/-- A window that ends at second `t` is watched: its failed checks are tracked, or
there will be no more of them. -/
def Watched (e : String) (φ : ι → CheckPhase) (w : World) (n : Nat) (F C : Finset ι)
    (t : Nat) : Prop :=
  Tracked e φ w n F C t ∨ (F = ∅ ∧ LockedUntil w e t)

/-- Every window without success has at most as many failed checks as the threshold, and
is watched until it ends. -/
def Bounded (env : Env) (e : String) (password : ι → String) (φ : ι → CheckPhase)
    (c : Threads ι) (n : Nat) (F : Finset ι) : Prop :=
  ∀ s, NoSuccess env e c s → ∃ C : Finset ι, (∀ i, i ∈ C ↔ ChecksWrong env e password c s i) ∧
    C.card ≤ env.settings.loginMaxAttempts ∧
    (c.world.now < s + env.settings.lockoutSeconds →
      Watched e φ c.world n F C (s + env.settings.lockoutSeconds))

end Invariant

/-! ## What a move shows in the log -/

section Moves
variable {ι : Type} {env : Env} {e : String} {password : ι → String} {φ : ι → CheckPhase}
  {c : Threads ι}

/-- The command a call in each phase is about to issue. -/
def CheckPhase.command (env : Env) (e : String) : CheckPhase → Option Cmd
  | before => some (.ttl (loginLockKey e))
  | tested => some (.getByEmail e)
  | wrong => some (.incr (loginAttemptsKey e))
  | counted _ => some (.expire (loginAttemptsKey e) env.settings.lockoutSeconds)
  | locking => some (.set (loginLockKey e) "1" env.settings.lockoutSeconds)
  | clearing => some (.delete {loginAttemptsKey e})
  | passed => some (.delete {loginAttemptsKey e, loginLockKey e})
  | finished _ => none

theorem CheckMove.command_eq {φ φ' : CheckPhase} {password : String} {cmd cmd' : Cmd} {s : State}
    (hm : CheckMove env e password φ cmd s φ') (h : φ.command env e = some cmd') : cmd = cmd' := by
  cases hm <;> first | exact Option.some.inj h | cases h

theorem next_of_command
    (hobey : AllObey (machine env) (fun i => CheckMove env e (password i)) (fun _ => CheckEnd) φ c)
    {i : ι} {cmd : Cmd} (h : (φ i).command env e = some cmd) : c.next i = some cmd := by
  have hend : ∀ o : Except Exc Reply, ¬ CheckEnd (φ i) o := by
    rintro o ⟨b, hb, -⟩
    rw [hb] at h
    cases h
  obtain ⟨cmd', φ', hnext, hm⟩ := (hobey i).exists_next hend ((c.threads i).locals, c.world)
  rw [Config.next, hnext, hm.command_eq h]

/-- The only move that checks a wrong password. -/
theorem CheckMove.failedCheck_iff {φ φ' : CheckPhase} {password : String} {cmd : Cmd} {l : Session}
    {w : World} (hm : CheckMove env e password φ cmd (l, w) φ') (i : ι) :
    FailedCheck env e password ⟨i, cmd, (exec env cmd (l, w)).1, w⟩ ↔ φ = .tested ∧ φ' = .wrong := by
  cases hm with
  | fail h => simpa [FailedCheck, exec] using h
  | unverified h | pass h => simp [FailedCheck, exec, h]
  | rest hc =>
    cases cmd with
    | getByEmail => cases hc
    | _ => simp [FailedCheck]
  | _ => simp [FailedCheck]

theorem CheckMove.failed_iff {φ φ' : CheckPhase} {password : String} {cmd : Cmd} {s : State}
    (hm : CheckMove env e password φ cmd s φ') :
    φ'.failed ↔ φ.failed ∨ (φ = .tested ∧ φ' = .wrong) := by
  cases hm <;> simp [CheckPhase.failed]

variable [DecidableEq ι] {i : ι} {cmd : Cmd} {k : Except Exc cmd.Val → AuthM Reply}
  {φ' : CheckPhase}

/-- The calls that have checked a wrong password in a window after one more move. -/
theorem checksWrong_issue
    (hm : CheckMove env e (password i) (φ i) cmd ((c.threads i).locals, c.world) φ') (s : Nat)
    (j : ι) : ChecksWrong env e password (c.issue (machine env) i cmd k) s j ↔
      ChecksWrong env e password c s j ∨ (j = i ∧ (φ i = .tested ∧ φ' = .wrong) ∧
        s ≤ c.world.now ∧ c.world.now < s + env.settings.lockoutSeconds) := by
  unfold ChecksWrong
  rw [Config.log_issue, List.exists_mem_cons_iff, or_comm]
  apply or_congr Iff.rfl
  constructor
  · rintro ⟨rfl, hf, hw⟩
    exact ⟨rfl, (hm.failedCheck_iff i).mp hf, hw⟩
  · rintro ⟨rfl, hf, hw⟩
    exact ⟨rfl, (hm.failedCheck_iff j).mpr hf, hw⟩

omit [DecidableEq ι] in
/-- A window that lies ahead holds no check. -/
theorem ChecksWrong.le_now (h : Noted env e password φ c) {s : Nat} {j : ι}
    (hj : ChecksWrong env e password c s j) : s ≤ c.world.now := by
  obtain ⟨ev, hev, -, -, hs, -⟩ := hj
  exact hs.trans (h.past ev hev)

omit [DecidableEq ι] in
theorem ChecksWrong.failed (h : Noted env e password φ c) {s : Nat} {j : ι}
    (hj : ChecksWrong env e password c s j) : (φ j).failed := by
  obtain ⟨ev, hev, hi, hf, -⟩ := hj
  exact (h.failed j).mpr ⟨ev, hev, hi, hf⟩

theorem NoSuccess.of_issue {s : Nat} (h : NoSuccess env e (c.issue (machine env) i cmd k) s) :
    NoSuccess env e c s := fun ev hev => h ev (List.mem_cons_of_mem _ hev)

omit [DecidableEq ι] in
theorem Noted.start (env : Env) (w : World) (requests : ι → Request) :
    Noted env e password (fun _ => .before) (beside env w requests) where
  past ev hev := by cases hev
  failed i := by simp [CheckPhase.failed, beside]

theorem Noted.drift (h : Noted env e password φ c) (n : Nat) :
    Noted env e password φ (c.step (machine env) (.drift n)) where
  past ev hev := Nat.le_add_right_of_le (h.past ev hev)
  failed := h.failed

theorem Noted.move (h : Noted env e password φ c)
    (hm : CheckMove env e (password i) (φ i) cmd ((c.threads i).locals, c.world) φ') :
    Noted env e password (Function.update φ i φ') (c.issue (machine env) i cmd k) where
  past ev hev := by
    rw [world_issue, exec_now]
    rcases List.mem_cons.mp hev with rfl | hev
    · exact Nat.le_refl _
    · exact h.past ev hev
  failed j := by
    rw [Config.log_issue, List.exists_mem_cons_iff, or_comm, ← h.failed j]
    by_cases hj : j = i
    · subst hj
      rw [Function.update_self, hm.failed_iff]
      exact or_congr Iff.rfl ⟨fun hf => ⟨rfl, (hm.failedCheck_iff j).mpr hf⟩,
        fun hf => (hm.failedCheck_iff j).mp hf.2⟩
    · rw [Function.update_of_ne hj]
      constructor
      · exact .inl
      · rintro (hf | ⟨hij, -⟩)
        · exact hf
        · exact absurd hij.symm hj

/-- A move that leaves both keys of `e` as they are, and neither fails a check nor
comes to close the account down. -/
structure QuietMove (env : Env) (e : String) (φ φ' : CheckPhase) (w v : World) : Prop where
  now : v.now = w.now
  users : v.users = w.users
  attempts : ∀ t, v.redis.look t (loginAttemptsKey e) = w.redis.look t (loginAttemptsKey e)
  lock : ∀ t, v.redis.ttl t (loginLockKey e) = w.redis.ttl t (loginLockKey e)
  open' : ¬ φ'.closing env.settings.loginMaxAttempts
  counted : ∀ m, φ ≠ .counted m
  clearing : φ' ≠ .clearing

section Quiet
variable {w v : World} {n : Nat} {F G : Finset ι} (hq : QuietMove env e (φ i) φ' w v)
include hq

/-- A quiet move, given the calls under way after it. -/
theorem Tally.quiet (h : Tally env e password φ w n F)
    (hF : ∀ j, j ∈ G ↔ (Function.update φ i φ' j).underWay env e (password j) w)
    (hroom : n + G.card ≤ env.settings.loginMaxAttempts)
    (hempty : G ⊆ F ∨ ∀ j, ¬ (φ j).closing env.settings.loginMaxAttempts) :
    Tally env e password (Function.update φ i φ') v n G := by
  have hclosing : ∀ j, (Function.update φ i φ' j).closing env.settings.loginMaxAttempts →
      (φ j).closing env.settings.loginMaxAttempts :=
    before_update fun hclosing => absurd hclosing hq.open'
  refine ⟨?_, ?_, ?_, ?_, ?_, ?_⟩
  · simpa only [Counts, hq.now, hq.attempts] using h.counts
  · exact fun j => (hF j).trans (CheckPhase.underWay_congr hq.users _).symm
  · exact hroom
  · intro j hj
    rcases hempty with hsub | hnone
    · exact Finset.subset_empty.mp (h.empty j (hclosing j hj) ▸ hsub)
    · exact absurd (hclosing j hj) (hnone j)
  · exact fun j j' hj hj' => h.alone j j' (hclosing j hj) (hclosing j' hj')
  · intro j m hj hm
    have hbefore := before_update (P := fun ψ : CheckPhase => ψ = .counted m)
      (fun hφ' => absurd (by rw [hφ']; exact hm) hq.open') j hj
    exact h.full j m hbefore hm

/-- The failed checks of a window stay tracked under a quiet move of a call that has
none in it, or that does not change which calls are under way. -/
theorem Watched.quiet {C : Finset ι} {t : Nat} (h : Watched e φ w n F C t) (hlive : w.now < t)
    (hC : ∀ j ∈ C, j ∈ F ↔ j ∈ G) (hgrow : G ⊆ F ∨ ¬ 0 < w.redis.ttl w.now (loginLockKey e)) :
    Watched e (Function.update φ i φ') v n G C t := by
  rcases h with h | ⟨rfl, hlocked⟩
  · left
    have hdiff : C \ G = C \ F := by
      ext j
      simp only [Finset.mem_sdiff]
      exact and_congr_right fun hj => not_congr (hC j hj).symm
    refine ⟨hdiff ▸ h.enough, ?_, ?_⟩
    · rcases h.kept with hsub | huntil | ⟨j, m, hj⟩
      · exact .inl fun j hj => (hC j hj).mp (hsub hj)
      · refine .inr (.inl ?_)
        simpa only [CounterUntil, hq.now, hq.attempts] using huntil
      · have hji : j ≠ i := by
          rintro rfl
          exact hq.counted m hj
        exact .inr (.inr ⟨j, m, by rw [Function.update_of_ne hji, hj]⟩)
    · exact fun j hj => h.clearing j
        (before_update (P := fun ψ : CheckPhase => ψ = .clearing) (fun hi => absurd hi hq.clearing)
          j hj)
  · right
    rcases hgrow with hsub | hopen
    · refine ⟨Finset.subset_empty.mp hsub, ?_⟩
      simpa only [LockedUntil, hq.now, hq.lock] using hlocked
    · exact absurd (hlocked w.now (Nat.le_refl _) hlive) hopen

end Quiet

/-! ## The moves that touch counter or lock -/

section Tallies
variable {w : World} {n : Nat} {F C : Finset ι} {t : Nat} (h : Tally env e password φ w n F)
include h

omit [DecidableEq ι] in
theorem Tally.mem (hi : (φ i).underWay env e (password i) w) : i ∈ F := (h.underWay i).mpr hi

omit [DecidableEq ι] in
/-- While a call is under way no call closes the account down. -/
theorem Tally.not_closing (hi : (φ i).underWay env e (password i) w) (j : ι) :
    ¬ (φ j).closing env.settings.loginMaxAttempts := by
  intro hj
  have hmem := h.mem hi
  rw [h.empty j hj] at hmem
  exact absurd hmem (Finset.notMem_empty i)

theorem Tally.mem_erase (hφ' : ¬ φ'.underWay env e (password i) w) (j : ι) :
    j ∈ F.erase i ↔ (Function.update φ i φ' j).underWay env e (password j) w := by
  by_cases hj : j = i
  · subst hj
    simpa using hφ'
  · rw [Function.update_of_ne hj, Finset.mem_erase, h.underWay]
    simp [hj]

theorem Tally.mem_insert (hφ' : φ'.underWay env e (password i) w) (j : ι) :
    j ∈ insert i F ↔ (Function.update φ i φ' j).underWay env e (password j) w := by
  by_cases hj : j = i
  · subst hj
    simpa using hφ'
  · rw [Function.update_of_ne hj, Finset.mem_insert, h.underWay]
    simp [hj]

theorem Tally.mem_same
    (hφ' : (φ i).underWay env e (password i) w ↔ φ'.underWay env e (password i) w) (j : ι) :
    j ∈ F ↔ (Function.update φ i φ' j).underWay env e (password j) w := by
  by_cases hj : j = i
  · subst hj
    rw [Function.update_self, h.underWay, hφ']
  · rw [Function.update_of_ne hj, h.underWay]

/-- A failed check has been counted. -/
theorem Tally.count (hφ : φ i = .wrong) {m : Int} {redis : Redis}
    (hincr : w.redis.incr Value.toInt? Value.num w.now (loginAttemptsKey e) = some (m, redis)) :
    Tally env e password (Function.update φ i (.counted m)) { w with redis := redis } (n + 1)
      (F.erase i) := by
  have hway : (φ i).underWay env e (password i) w := by rw [hφ]; trivial
  have hmem := h.mem hway
  have hcard := Finset.card_erase_add_one hmem
  have hroom := h.room
  obtain ⟨d, hincr', hlook⟩ := incr_of_counts h.counts
  obtain ⟨rfl, rfl⟩ := Prod.mk.inj (Option.some.inj (hincr.symm.trans hincr'))
  have hsole : ∀ j, (Function.update φ i (.counted (n + 1 : Nat)) j).closing
      env.settings.loginMaxAttempts → j = i ∧ n + 1 = env.settings.loginMaxAttempts := by
    intro j hj
    by_cases hji : j = i
    · subst hji
      rw [Function.update_self] at hj
      have hle : env.settings.loginMaxAttempts ≤ n + 1 := Int.ofNat_le.mp hj
      exact ⟨rfl, by omega⟩
    · rw [Function.update_of_ne hji] at hj
      exact absurd hj (h.not_closing hway j)
  refine ⟨.inr ⟨d, hlook⟩, h.mem_erase (by simp [CheckPhase.underWay]), by omega, ?_, ?_, ?_⟩
  · intro j hj
    have hfull := (hsole j hj).2
    exact Finset.card_eq_zero.mp (by omega)
  · exact fun j j' hj hj' => (hsole j hj).1.trans (hsole j' hj').1.symm
  · intro j m hj hm
    exact (hsole j (by rw [hj]; exact hm)).2

/-- The counter has been given a new deadline. -/
theorem Tally.expire {m : Int} (hφ : φ i = .counted m) (hway : ¬ φ'.underWay env e (password i) w)
    (hcounted : ∀ m', φ' ≠ .counted m')
    (hclosing : φ'.closing env.settings.loginMaxAttempts →
      (env.settings.loginMaxAttempts : Int) ≤ m) :
    Tally env e password (Function.update φ i φ') { w with
      redis := (w.redis.expire w.now (loginAttemptsKey e) env.settings.lockoutSeconds).2 } n F := by
  have hbefore : ∀ j, (Function.update φ i φ' j).closing env.settings.loginMaxAttempts →
      (φ j).closing env.settings.loginMaxAttempts := by
    refine before_update fun hi => ?_
    rw [hφ]
    exact hclosing hi
  refine ⟨?_, h.mem_same (by simpa [hφ, CheckPhase.underWay] using hway), h.room, ?_, ?_, ?_⟩
  · rcases h.counts with ⟨hnone, hn⟩ | ⟨d, hl⟩
    · refine .inl ⟨?_, hn⟩
      rw [Store.expire_of_look_none hnone]
      exact hnone
    · right
      have hpos := env.settings.lockoutSeconds_pos
      have hlook := Store.look_expire_self w.now hl env.settings.lockoutSeconds
      rw [if_pos (by omega)] at hlook
      exact ⟨_, hlook⟩
  · exact fun j hj => h.empty j (hbefore j hj)
  · exact fun j j' hj hj' => h.alone j j' (hbefore j hj) (hbefore j' hj')
  · intro j m' hj hm
    have hbefore := before_update (P := fun ψ : CheckPhase => ψ = .counted m')
      (fun hφ' => absurd hφ' (hcounted m')) j hj
    exact h.full j m' hbefore hm

/-- The lock has been set. -/
theorem Tally.lock (hφ : φ i = .locking) (v : Value) (seconds : Nat) :
    Tally env e password (Function.update φ i .clearing)
      { w with redis := w.redis.setEx w.now (loginLockKey e) v seconds } n F := by
  have hbefore : ∀ j, (Function.update φ i .clearing j).closing env.settings.loginMaxAttempts →
      (φ j).closing env.settings.loginMaxAttempts := by
    refine before_update fun _ => ?_
    rw [hφ]
    trivial
  refine ⟨?_, h.mem_same (by simp [hφ, CheckPhase.underWay]), h.room, ?_, ?_, ?_⟩
  · simpa [Counts] using h.counts
  · exact fun j hj => h.empty j (hbefore j hj)
  · exact fun j j' hj hj' => h.alone j j' (hbefore j hj) (hbefore j' hj')
  · intro j m hj hm
    have hbefore := before_update (P := fun ψ : CheckPhase => ψ = .counted m) (by simp) j hj
    exact h.full j m hbefore hm

/-- The counter has been deleted by a call after which nobody closes the account down. -/
theorem Tally.delete {b : Bool} {keys : Finset String} (hkeys : loginAttemptsKey e ∈ keys)
    (hothers : ∀ j, j ≠ i → ¬ (φ j).closing env.settings.loginMaxAttempts) :
    Tally env e password (Function.update φ i (.finished b))
      { w with redis := (w.redis.delete w.now keys).2 } 0 (F.erase i) := by
  have hnone : ∀ j, ¬ (Function.update φ i (.finished b) j).closing env.settings.loginMaxAttempts := by
    intro j hj
    by_cases hji : j = i
    · subst hji
      rw [Function.update_self] at hj
      exact hj
    · rw [Function.update_of_ne hji] at hj
      exact hothers j hji hj
  refine ⟨.inl ⟨by simp [hkeys], rfl⟩, h.mem_erase (by simp [CheckPhase.underWay]), ?_, ?_, ?_, ?_⟩
  · have hle := Finset.card_le_card (Finset.erase_subset i F)
    have hroom := h.room
    omega
  · exact fun j hj => absurd hj (hnone j)
  · exact fun j _ hj => absurd hj (hnone j)
  · exact fun j m hj hm => absurd (by rw [hj]; exact hm) (hnone j)

omit [DecidableEq ι] in
/-- The seconds that pass do not take the counter away from a call that has raised it. -/
theorem Tally.drift {seconds : Nat}
    (hlasts : (∃ j m, φ j = .counted m) → (w.redis.look w.now (loginAttemptsKey e)).isSome →
      (w.redis.look (w.now + seconds) (loginAttemptsKey e)).isSome) :
    (Tally env e password φ { w with now := w.now + seconds } n F ∧
      (0 < n → (w.redis.look (w.now + seconds) (loginAttemptsKey e)).isSome)) ∨
    (Tally env e password φ { w with now := w.now + seconds } 0 F ∧
      (w.redis.look (w.now + seconds) (loginAttemptsKey e)) = none ∧
      (0 < n → ¬ ∃ j m, φ j = .counted m)) := by
  have hle : w.now ≤ w.now + seconds := Nat.le_add_right ..
  cases hl : w.redis.look (w.now + seconds) (loginAttemptsKey e) with
  | some cell =>
    left
    have hbefore := Store.look_of_later hle hl
    have hcounts : Counts { w with now := w.now + seconds } e n := by
      rcases h.counts with ⟨hnone, -⟩ | ⟨d, hd⟩
      · rw [hnone] at hbefore
        cases hbefore
      · obtain rfl := Option.some.inj (hbefore.symm.trans hd)
        exact .inr ⟨d, hl⟩
    exact ⟨⟨hcounts, h.underWay, h.room, h.empty, h.alone, h.full⟩, fun _ => rfl⟩
  | none =>
    right
    have hnot : 0 < n → ¬ ∃ j m, φ j = .counted m := by
      intro hn hcounted
      rcases h.counts with ⟨-, rfl⟩ | ⟨d, hd⟩
      · exact absurd hn (Nat.lt_irrefl 0)
      · have hlast := hlasts hcounted (by rw [hd]; rfl)
        rw [hl] at hlast
        cases hlast
    have hroom := h.room
    refine ⟨⟨.inl ⟨hl, rfl⟩, h.underWay, by omega, h.empty, h.alone, ?_⟩, rfl, hnot⟩
    intro j m hj hm
    have hfull := h.full j m hj hm
    have hpos := env.settings.attempts_pos
    exact absurd ⟨j, m, hj⟩ (hnot (by omega))

end Tallies

section Windows
variable {w : World} {n : Nat} {F C : Finset ι} {t : Nat}

theorem Watched.of_empty : Watched e φ w n F ∅ t :=
  .inl ⟨by simp, .inl (Finset.empty_subset F), fun _ _ => rfl⟩

/-- A call under way leaves no window shut. -/
theorem Watched.tracked (h : Watched e φ w n F C t) (hi : i ∈ F) : Tracked e φ w n F C t := by
  rcases h with h | ⟨rfl, -⟩
  · exact h
  · exact absurd hi (Finset.notMem_empty i)

/-- A tracked window has no more failed checks than the threshold. -/
theorem Tracked.card_le (h : Tracked e φ w n F C t) (ht : Tally env e password φ w n F) :
    C.card ≤ env.settings.loginMaxAttempts := by
  have hsub : C ⊆ (C \ F) ∪ F := by
    intro j hj
    by_cases hF : j ∈ F <;> simp [hj, hF]
  calc C.card ≤ ((C \ F) ∪ F).card := Finset.card_le_card hsub
    _ ≤ (C \ F).card + F.card := Finset.card_union_le ..
    _ ≤ n + F.card := Nat.add_le_add_right h.enough _
    _ ≤ env.settings.loginMaxAttempts := ht.room

theorem Watched.fail (h : Watched e φ w n F C t) (ht : Tally env e password φ w n F)
    (hφ : φ i = .tested) (hwrong : WrongFor env e (password i) w) {C' : Finset ι}
    (hC : C' ⊆ insert i C) : Tracked e (Function.update φ i .wrong) w n F C' t := by
  have hway : (φ i).underWay env e (password i) w := by rw [hφ]; exact hwrong
  have hi := ht.mem hway
  have htracked := h.tracked hi
  have hdiff : C' \ F ⊆ C \ F := by
    intro j hj
    obtain ⟨hjC, hjF⟩ := Finset.mem_sdiff.mp hj
    rcases Finset.mem_insert.mp (hC hjC) with rfl | hjC
    · exact absurd hi hjF
    · exact Finset.mem_sdiff.mpr ⟨hjC, hjF⟩
  refine ⟨(Finset.card_le_card hdiff).trans htracked.enough, ?_, ?_⟩
  · rcases htracked.kept with hsub | huntil | ⟨j, m, hj⟩
    · exact .inl (hC.trans (Finset.insert_subset hi hsub))
    · exact .inr (.inl huntil)
    · have hji : j ≠ i := by
        rintro rfl
        rw [hφ] at hj
        cases hj
      exact .inr (.inr ⟨j, m, by rw [Function.update_of_ne hji, hj]⟩)
  · intro j hj
    have hbefore := before_update (P := fun ψ : CheckPhase => ψ = .clearing) (by simp) j hj
    exact absurd (by rw [hbefore]; trivial) (ht.not_closing hway j)

theorem Watched.count (h : Watched e φ w n F C t) (ht : Tally env e password φ w n F)
    (hφ : φ i = .wrong) (m : Int) (v : World) :
    Watched e (Function.update φ i (.counted m)) v (n + 1) (F.erase i) C t := by
  have hway : (φ i).underWay env e (password i) w := by rw [hφ]; trivial
  have htracked := h.tracked (ht.mem hway)
  refine .inl ⟨?_, .inr (.inr ⟨i, m, Function.update_self ..⟩), ?_⟩
  · have hsub : C \ F.erase i ⊆ insert i (C \ F) := by
      intro j hj
      simp only [Finset.mem_sdiff, Finset.mem_erase, not_and, Finset.mem_insert] at hj ⊢
      by_cases hji : j = i
      · exact .inl hji
      · exact .inr ⟨hj.1, hj.2 hji⟩
    calc (C \ F.erase i).card ≤ (insert i (C \ F)).card := Finset.card_le_card hsub
      _ ≤ (C \ F).card + 1 := Finset.card_insert_le ..
      _ ≤ n + 1 := Nat.add_le_add_right htracked.enough 1
  · intro j hj
    have hbefore := before_update (P := fun ψ : CheckPhase => ψ = .clearing) (by simp) j hj
    exact absurd (by rw [hbefore]; trivial) (ht.not_closing hway j)

/-- The counter now lasts until the end of every window that has begun. -/
theorem Watched.expire {s : Nat} (h : Watched e φ w n F C (s + env.settings.lockoutSeconds))
    (ht : Tally env e password φ w n F) (hs : C.Nonempty → s ≤ w.now) (hφ' : φ' ≠ .clearing) :
    Watched e (Function.update φ i φ') { w with
      redis := (w.redis.expire w.now (loginAttemptsKey e) env.settings.lockoutSeconds).2 } n F C
      (s + env.settings.lockoutSeconds) := by
  rcases h with h | ⟨hF, hlocked⟩
  · refine .inl ⟨h.enough, ?_, ?_⟩
    · by_cases hsub : C ⊆ F
      · exact .inl hsub
      · obtain ⟨j, hj, hjF⟩ := Finset.not_subset.mp hsub
        have hbegun := hs ⟨j, hj⟩
        have hcount : 0 < n :=
          (Finset.card_pos.mpr ⟨j, Finset.mem_sdiff.mpr ⟨hj, hjF⟩⟩).trans_le h.enough
        rcases ht.counts with ⟨-, rfl⟩ | ⟨d, hd⟩
        · exact absurd hcount (Nat.lt_irrefl 0)
        · refine .inr (.inl fun later _ hlater => ?_)
          dsimp only
          rw [Store.look_expire_self later hd, if_pos (by omega)]
          rfl
    · exact fun j hj => h.clearing j
        (before_update (P := fun ψ : CheckPhase => ψ = .clearing) (fun hi => absurd hi hφ') j hj)
  · refine .inr ⟨hF, fun later hle hlater => ?_⟩
    have hsame : Store.ttl later (loginLockKey e)
        (w.redis.expire w.now (loginAttemptsKey e) env.settings.lockoutSeconds).2 =
        w.redis.ttl later (loginLockKey e) :=
      Store.ttl_congr (Store.look_expire_of_ne _ _ _ (by simp) _) (by rw [Store.sets_expire])
    rw [hsame]
    exact hlocked later hle hlater

/-- The lock now lasts until the end of every window that has begun. -/
theorem Watched.lock {s : Nat} (ht : Tally env e password φ w n F) (hφ : φ i = .locking)
    (hs : C.Nonempty → s ≤ w.now) (v : Value) :
    Watched e (Function.update φ i .clearing)
      { w with redis := w.redis.setEx w.now (loginLockKey e) v env.settings.lockoutSeconds } n F C
      (s + env.settings.lockoutSeconds) := by
  have hF : F = ∅ := ht.empty i (by rw [hφ]; trivial)
  rcases C.eq_empty_or_nonempty with rfl | hC
  · exact .of_empty
  · have hbegun := hs hC
    refine .inr ⟨hF, fun later _ hlater => ?_⟩
    have hlook := Store.look_setEx later w.now (loginLockKey e) (loginLockKey e) w.redis v
      env.settings.lockoutSeconds
    rw [if_pos rfl, if_pos (by omega)] at hlook
    dsimp only
    rw [Store.ttl_of_look hlook]
    omega

theorem Watched.clear (h : Watched e φ w n F C t) (hφ : φ i = .clearing) :
    Watched e (Function.update φ i (.finished true))
      { w with redis := (w.redis.delete w.now {loginAttemptsKey e}).2 } 0 (F.erase i) C t := by
  rcases h with h | ⟨rfl, hlocked⟩
  · rw [h.clearing i hφ]
    exact .of_empty
  · refine .inr ⟨rfl, fun later hle hlater => ?_⟩
    have hsame : Store.ttl later (loginLockKey e)
        (w.redis.delete w.now {loginAttemptsKey e}).2 = w.redis.ttl later (loginLockKey e) :=
      Store.ttl_congr (by simp) (by simp)
    rw [hsame]
    exact hlocked later hle hlater

omit [DecidableEq ι] in
theorem LockedUntil.drift (h : LockedUntil w e t) (seconds : Nat) :
    LockedUntil { w with now := w.now + seconds } e t :=
  fun later hle => h later ((Nat.le_add_right ..).trans hle)

theorem Watched.drift (h : Watched e φ w n F C t) {seconds n' : Nat} (hlive : w.now + seconds < t)
    (hn : n' = n ∨ (w.redis.look (w.now + seconds) (loginAttemptsKey e) = none ∧
      (0 < n → ¬ ∃ j m, φ j = .counted m))) :
    Watched e φ { w with now := w.now + seconds } n' F C t := by
  have hle : w.now ≤ w.now + seconds := Nat.le_add_right ..
  rcases h with h | ⟨rfl, hlocked⟩
  · left
    have hkept : CounterUntil w e t → CounterUntil { w with now := w.now + seconds } e t :=
      fun huntil later hlater => huntil later (hle.trans hlater)
    rcases hn with rfl | ⟨hnone, hcounted⟩
    · exact ⟨h.enough, h.kept.imp_right (Or.imp_left hkept), h.clearing⟩
    · -- the counter is gone, so none of the window's checks rested on it
      have hsub : C ⊆ F := by
        by_contra hsub
        obtain ⟨j, hj, hjF⟩ := Finset.not_subset.mp hsub
        have hcount : 0 < n :=
          (Finset.card_pos.mpr ⟨j, Finset.mem_sdiff.mpr ⟨hj, hjF⟩⟩).trans_le h.enough
        rcases h.kept with hsub' | huntil | hex
        · exact hsub hsub'
        · have hsome := huntil _ hle hlive
          rw [hnone] at hsome
          cases hsome
        · exact hcounted hcount hex
      exact ⟨by simp [Finset.sdiff_eq_empty_iff_subset.mpr hsub], .inl hsub, h.clearing⟩
  · exact .inr ⟨rfl, hlocked.drift seconds⟩

end Windows

/-! ## Every move keeps the bound -/

/-- The invariant of every schedule whose acts leave room. -/
structure Guarded (env : Env) (e : String) (password : ι → String) (φ : ι → CheckPhase)
    (c : Threads ι) : Prop where
  reads : ∀ i, (c.threads i).locals = []
  noted : Noted env e password φ c
  bound : ∃ n F, Tally env e password φ c.world n F ∧ Bounded env e password φ c n F

section Bounds
variable {n n' : Nat} {F G : Finset ι}

/-- A move that fails no check has to keep every window watched. -/
theorem Bounded.keep (h : Bounded env e password φ c n F) (hn : Noted env e password φ c)
    (hm : CheckMove env e (password i) (φ i) cmd ((c.threads i).locals, c.world) φ')
    (hnf : ¬ (φ i = .tested ∧ φ' = .wrong))
    (hwatch : ∀ s C, NoSuccess env e (c.issue (machine env) i cmd k) s → (∀ j ∈ C, (φ j).failed) →
      (C.Nonempty → s ≤ c.world.now) → c.world.now < s + env.settings.lockoutSeconds →
      Watched e φ c.world n F C (s + env.settings.lockoutSeconds) →
      Watched e (Function.update φ i φ') (c.issue (machine env) i cmd k).world n' G C
        (s + env.settings.lockoutSeconds)) :
    Bounded env e password (Function.update φ i φ') (c.issue (machine env) i cmd k) n' G := by
  intro s hs
  obtain ⟨C, hC, hle, hw⟩ := h s hs.of_issue
  refine ⟨C, ?_, hle, ?_⟩
  · intro j
    rw [checksWrong_issue hm, hC]
    constructor
    · exact .inl
    · rintro (hj | ⟨-, hf, -⟩)
      · exact hj
      · exact absurd hf hnf
  · intro hlive
    rw [world_issue, exec_now] at hlive
    exact hwatch s C hs (fun j hj => ((hC j).mp hj).failed hn)
      (fun ⟨j, hj⟩ => ((hC j).mp hj).le_now hn) hlive (hw hlive)

theorem Bounded.fail (h : Bounded env e password φ c n F) (ht : Tally env e password φ c.world n F)
    (hm : CheckMove env e (password i) (φ i) cmd ((c.threads i).locals, c.world) .wrong)
    (hφ : φ i = .tested) (hwrong : WrongFor env e (password i) c.world)
    (hworld : (c.issue (machine env) i cmd k).world = c.world)
    (ht' : Tally env e password (Function.update φ i .wrong) c.world n F) :
    Bounded env e password (Function.update φ i .wrong) (c.issue (machine env) i cmd k) n F := by
  intro s hs
  obtain ⟨C, hC, hle, hw⟩ := h s hs.of_issue
  have hiff : ∀ j, ChecksWrong env e password (c.issue (machine env) i cmd k) s j ↔
      j ∈ C ∨ (j = i ∧ s ≤ c.world.now ∧ c.world.now < s + env.settings.lockoutSeconds) := by
    intro j
    rw [checksWrong_issue hm, hC]
    simp [hφ]
  by_cases hnow : s ≤ c.world.now ∧ c.world.now < s + env.settings.lockoutSeconds
  · have htracked := (hw hnow.2).fail ht hφ hwrong (Finset.Subset.refl (insert i C))
    refine ⟨insert i C, ?_, htracked.card_le ht', fun _ => ?_⟩
    · intro j
      rw [hiff, Finset.mem_insert]
      simp [hnow, or_comm]
    · rw [hworld]
      exact .inl htracked
  · refine ⟨C, ?_, hle, fun hlive => ?_⟩
    · intro j
      rw [hiff]
      simp [hnow]
    · rw [hworld] at hlive ⊢
      exact .inl ((hw hlive).fail ht hφ hwrong (Finset.subset_insert i C))

/-- A quiet move keeps the bound, given the calls under way after it. -/
theorem Bounded.quiet (h : Bounded env e password φ c n F) (hn : Noted env e password φ c)
    (ht : Tally env e password φ c.world n F)
    (hm : CheckMove env e (password i) (φ i) cmd ((c.threads i).locals, c.world) φ')
    (hq : QuietMove env e (φ i) φ' c.world (c.issue (machine env) i cmd k).world)
    (hnf : ¬ (φ i = .tested ∧ φ' = .wrong))
    (hF : ∀ j, j ∈ G ↔ (Function.update φ i φ' j).underWay env e (password j) c.world)
    (hroom : n + G.card ≤ env.settings.loginMaxAttempts)
    (hfailed : ∀ j, (φ j).failed → (j ∈ F ↔ j ∈ G))
    (hgrow : G ⊆ F ∨ ((∀ j, ¬ (φ j).closing env.settings.loginMaxAttempts) ∧
      ¬ 0 < c.world.redis.ttl c.world.now (loginLockKey e))) :
    ∃ n' G', Tally env e password (Function.update φ i φ') (c.issue (machine env) i cmd k).world
        n' G' ∧
      Bounded env e password (Function.update φ i φ') (c.issue (machine env) i cmd k) n' G' := by
  refine ⟨n, G, ht.quiet hq hF hroom (hgrow.imp_right And.left), ?_⟩
  exact h.keep hn hm hnf fun s C _ hC _ hlive hw =>
    hw.quiet hq hlive (fun j hj => hfailed j (hC j hj)) (hgrow.imp_right And.right)

end Bounds

/-- What a login does once it is done with counter and lock leaves both alone. -/
theorem exec_afterCheck (env : Env) (e : String) (hc : cmd.afterCheck) (s : State) :
    (∀ t, (exec env cmd s).2.2.redis.look t (loginAttemptsKey e) =
      s.2.redis.look t (loginAttemptsKey e)) ∧
    ∀ t, (exec env cmd s).2.2.redis.ttl t (loginLockKey e) = s.2.redis.ttl t (loginLockKey e) := by
  obtain ⟨l, w⟩ := s
  cases cmd with
  | set key value ex =>
    obtain ⟨j, rfl⟩ := hc
    exact ⟨fun t => by simp [exec], fun t => Store.ttl_congr (by simp [exec]) (by simp [exec])⟩
  | sadd key member =>
    obtain ⟨u, rfl⟩ := hc
    exact ⟨fun t => by simp [exec], fun t => Store.ttl_congr (by simp [exec]) (by simp [exec])⟩
  | utcNow | commit | rollback | respond => exact ⟨fun _ => rfl, fun _ => rfl⟩
  | _ => cases hc

theorem Guarded.start (env : Env) {w : World} {n : Nat} (hcounts : Counts w e n)
    (hn : n ≤ env.settings.loginMaxAttempts) (requests : ι → Request) :
    Guarded env e password (fun _ => .before) (beside env w requests) := by
  refine ⟨fun _ => rfl, .start env w requests, n, ∅, ?_, ?_⟩
  · exact ⟨hcounts, by simp [CheckPhase.underWay], by simpa using hn, fun _ _ => rfl,
      fun _ _ h => h.elim, fun _ _ h => by cases h⟩
  · intro s _
    refine ⟨∅, fun i => ?_, by simp, fun _ => .of_empty⟩
    simp [ChecksWrong, beside]

theorem Guarded.drift
    (hobey : AllObey (machine env) (fun i => CheckMove env e (password i)) (fun _ => CheckEnd) φ c)
    (h : Guarded env e password φ c) {seconds : Nat}
    (hmeets : LeavesRoom env e password c (.drift seconds)) :
    Guarded env e password φ (c.step (machine env) (.drift seconds)) := by
  obtain ⟨hreads, hn, n, F, ht, hb⟩ := h
  have hlasts : (∃ j m, φ j = .counted m) →
      (c.world.redis.look c.world.now (loginAttemptsKey e)).isSome →
      (c.world.redis.look (c.world.now + seconds) (loginAttemptsKey e)).isSome := by
    rintro ⟨j, m, hj⟩
    exact hmeets j (next_of_command hobey (by rw [hj]; rfl))
  have hkeep : ∀ n', (n' = n ∨ (c.world.redis.look (c.world.now + seconds) (loginAttemptsKey e) =
      none ∧ (0 < n → ¬ ∃ j m, φ j = .counted m))) →
      Bounded env e password φ (c.step (machine env) (.drift seconds)) n' F := by
    intro n' hn' s hs
    obtain ⟨C, hC, hle, hw⟩ := hb s hs
    refine ⟨C, hC, hle, fun hlive => ?_⟩
    exact (hw ((Nat.le_add_right ..).trans_lt hlive)).drift hlive hn'
  rcases ht.drift hlasts with ⟨ht', -⟩ | ⟨ht', hnone, hnot⟩
  · exact ⟨hreads, hn.drift seconds, n, F, ht', hkeep n (.inl rfl)⟩
  · exact ⟨hreads, hn.drift seconds, 0, F, ht', hkeep 0 (.inr ⟨hnone, hnot⟩)⟩

omit [DecidableEq ι] in
theorem failedChecks_of_counts {w : World} {n : Nat} (h : Counts w e n) : w.failedChecks e = n := by
  unfold World.failedChecks
  rcases h with ⟨hnone, rfl⟩ | ⟨d, hd⟩
  · rw [hnone]
  · rw [hd]
    simp

omit [DecidableEq ι] in
/-- The calls a tally keeps are seen to be under way by their next commands. -/
theorem Tally.seen
    (hobey : AllObey (machine env) (fun i => CheckMove env e (password i)) (fun _ => CheckEnd) φ c)
    {n : Nat} {F : Finset ι} (ht : Tally env e password φ c.world n F) (j : ι) (hj : j ∈ F) :
    UnderWay env e password c j := by
  have hj := (ht.underWay j).mp hj
  generalize hψ : φ j = ψ at hj
  cases ψ with
  | tested => exact .inl ⟨next_of_command hobey (by rw [hψ]; rfl), hj⟩
  | wrong => exact .inr (next_of_command hobey (by rw [hψ]; rfl))
  | _ => cases hj

omit [DecidableEq ι] in
/-- While the counter is below the threshold and no call is seen to lock the account down,
no call is about to. -/
theorem Tally.none_closing
    (hobey : AllObey (machine env) (fun i => CheckMove env e (password i)) (fun _ => CheckEnd) φ c)
    {n : Nat} {F : Finset ι} (ht : Tally env e password φ c.world n F)
    (hn : n < env.settings.loginMaxAttempts) (hnone : ∀ j, ¬ LockingDown env e c j) (j : ι) :
    ¬ (φ j).closing env.settings.loginMaxAttempts := by
  intro hj
  generalize hψ : φ j = ψ at hj
  cases ψ with
  | counted m => exact absurd (ht.full j m hψ hj) (Nat.ne_of_lt hn)
  | locking => exact hnone j (.inl (next_of_command hobey (by rw [hψ]; rfl)))
  | clearing => exact hnone j (.inr (next_of_command hobey (by rw [hψ]; rfl)))
  | _ => cases hj

theorem Guarded.move
    (hobey : AllObey (machine env) (fun i => CheckMove env e (password i)) (fun _ => CheckEnd) φ c)
    (h : Guarded env e password φ c) (hp : (c.threads i).prog = .call cmd k)
    (hm : CheckMove env e (password i) (φ i) cmd ((c.threads i).locals, c.world) φ')
    (hmeets : LeavesRoom env e password c (.step i)) :
    Guarded env e password (Function.update φ i φ') (c.issue (machine env) i cmd k) := by
  obtain ⟨hreads, hn, n, F, ht, hb⟩ := h
  have hm' := hm
  rw [hreads i] at hm'
  have hrows : visibleRows [] c.world = c.world.users := by simp [visibleRows]
  refine ⟨?_, hn.move hm, ?_⟩
  · intro j
    by_cases hj : j = i
    · subst hj
      rw [Config.threads_issue_self, hreads j]
      exact hm'.reads.1
    · rw [Config.threads_issue_of_ne hj]
      exact hreads j
  generalize hφ : φ i = ψ at hm'
  cases hm' with
  | locked hlock =>
    refine hb.quiet (G := F) hn ht hm ?_ (by simp [hφ]) ?_ ht.room (fun _ _ => Iff.rfl)
      (.inl (Finset.Subset.refl F))
    · exact ⟨rfl, rfl, fun _ => rfl, fun _ => rfl, by simp [CheckPhase.closing], by simp [hφ],
        by simp⟩
    · exact ht.mem_same (by simp [hφ, CheckPhase.underWay])
  | test hlock =>
    have hq : QuietMove env e (φ i) .tested c.world
        (c.issue (machine env) i (.ttl (loginLockKey e)) k).world :=
      ⟨rfl, rfl, fun _ => rfl, fun _ => rfl, by simp [CheckPhase.closing], by simp [hφ], by simp⟩
    by_cases hwrong : WrongFor env e (password i) c.world
    · have hroom := hmeets.1 (by simp [Config.next, hp]) hlock hwrong
      rw [failedChecks_of_counts ht.counts] at hroom
      have hbelow := hroom.1 F (ht.seen hobey)
      have hnone := ht.none_closing hobey (by omega) hroom.2
      refine hb.quiet (G := insert i F) hn ht hm hq (by simp [hφ]) (ht.mem_insert hwrong) ?_ ?_
        (.inr ⟨hnone, hlock⟩)
      · have hcard := Finset.card_insert_le i F
        omega
      · intro j hj
        have hji : j ≠ i := by
          rintro rfl
          rw [hφ] at hj
          cases hj
        simp [hji]
    · -- a call with the right password takes no room
      refine hb.quiet (G := F) hn ht hm hq (by simp [hφ]) ?_ ht.room (fun _ _ => Iff.rfl)
        (.inl (Finset.Subset.refl F))
      exact ht.mem_same (by simp [hφ, CheckPhase.underWay, hwrong])
  | fail huser =>
    rw [hrows] at huser
    have ht' : Tally env e password (Function.update φ i .wrong) c.world n F := by
      refine ht.quiet (v := c.world) ⟨rfl, rfl, fun _ => rfl, fun _ => rfl, ?_, by simp [hφ],
        by simp⟩ (ht.mem_same ?_) ht.room (.inl (Finset.Subset.refl F))
      · simp [CheckPhase.closing]
      · rw [hφ]
        exact iff_of_true huser trivial
    refine ⟨n, F, ?_, hb.fail ht hm hφ huser rfl ht'⟩
    exact ht'
  | unverified huser | pass huser =>
    rw [hrows] at huser
    have hright : ¬ WrongFor env e (password i) c.world := by simp [WrongFor, huser]
    refine hb.quiet (G := F) hn ht hm ?_ (by simp) ?_ ht.room (fun _ _ => Iff.rfl)
      (.inl (Finset.Subset.refl F))
    · exact ⟨rfl, rfl, fun _ => rfl, fun _ => rfl, by simp [CheckPhase.closing], by simp [hφ],
        by simp⟩
    · exact ht.mem_same (by simp [hφ, CheckPhase.underWay, hright])
  | count hincr =>
    rename_i m redis
    have hworld : (c.issue (machine env) i (.incr (loginAttemptsKey e)) k).world =
        { c.world with redis := redis } := by
      rw [world_issue]
      simp [exec, hincr]
    refine ⟨n + 1, F.erase i, ?_, hb.keep hn hm (by simp) ?_⟩
    · rw [hworld]
      exact ht.count hφ hincr
    · exact fun s C _ _ _ _ hw => hw.count ht hφ m _
  | uncountable hincr =>
    obtain ⟨d, hsome, -⟩ := incr_of_counts ht.counts
    rw [hincr] at hsome
    cases hsome
  | expire hm₁ =>
    refine ⟨n, F, ?_, hb.keep hn hm (by simp) ?_⟩
    · exact ht.expire hφ (by simp [CheckPhase.underWay]) (by simp) (by simp [CheckPhase.closing])
    · exact fun s C _ _ hs _ hw => hw.expire ht hs (by simp)
  | expireFull hm₁ =>
    refine ⟨n, F, ?_, hb.keep hn hm (by simp) ?_⟩
    · exact ht.expire hφ (by simp [CheckPhase.underWay]) (by simp) (fun _ => hm₁)
    · exact fun s C _ _ hs _ hw => hw.expire ht hs (by simp)
  | lock =>
    refine ⟨n, F, ht.lock hφ _ _, hb.keep hn hm (by simp) ?_⟩
    exact fun s C _ _ hs _ _ => Watched.lock ht hφ hs _
  | clear =>
    refine ⟨0, F.erase i, ht.delete (by simp) ?_, hb.keep hn hm (by simp) ?_⟩
    · intro j hj hclosing
      exact hj (ht.alone j i hclosing (by rw [hφ]; trivial))
    · exact fun s C _ _ _ _ hw => hw.clear hφ
  | accept =>
    have hroom := hmeets.2 (by simp [Config.next, hp])
    rw [failedChecks_of_counts ht.counts] at hroom
    have hnone := ht.none_closing hobey hroom.1 hroom.2
    refine ⟨0, F.erase i, ht.delete (by simp) (fun j _ => hnone j), hb.keep hn hm (by simp) ?_⟩
    -- a window that has begun holds this success, one that lies ahead no check
    intro s C hs _ hbegun hlive _
    rcases C.eq_empty_or_nonempty with rfl | hC
    · exact .of_empty
    · exact absurd ⟨hbegun hC, hlive⟩ (hs _ (List.mem_cons_self ..) rfl)
  | rest hc =>
    have hkeys := exec_afterCheck env e hc ((c.threads i).locals, c.world)
    refine hb.quiet (G := F) hn ht hm ?_ (by simp) ?_ ht.room (fun _ _ => Iff.rfl)
      (.inl (Finset.Subset.refl F))
    · refine ⟨?_, ?_, hkeys.1, hkeys.2, by simp [CheckPhase.closing], by simp [hφ], by simp⟩
      · rw [world_issue, exec_now]
      · rw [world_issue, hreads i]
        exact exec_users (.inr rfl)
    · exact ht.mem_same (by simp [hφ, CheckPhase.underWay])

theorem Guarded.card_le (h : Guarded env e password φ c) {s : Nat} (hs : NoSuccess env e c s)
    {S : Finset ι} (hS : ∀ i ∈ S, ChecksWrong env e password c s i) :
    S.card ≤ env.settings.loginMaxAttempts := by
  obtain ⟨n, F, -, hb⟩ := h.bound
  obtain ⟨C, hC, hle, -⟩ := hb s hs
  exact (Finset.card_le_card fun i hi => (hC i).mpr (hS i hi)).trans hle

/-- A call that ended with `InvalidCredentialsError` has checked a wrong password. -/
theorem Guarded.checked
    (hobey : AllObey (machine env) (fun i => CheckMove env e (password i)) (fun _ => CheckEnd) φ c)
    (h : Guarded env e password φ c) {message : String}
    (ho : c.outcome i = some (.error (.invalidCredentialsError message))) :
    ∃ s, ChecksWrong env e password c s i := by
  obtain ⟨b, hφ, hfailed⟩ := hobey.final ho
  obtain rfl := hfailed message rfl
  obtain ⟨ev, hev, hi, hf⟩ := (h.noted.failed i).mp (by rw [hφ]; trivial)
  have hpos := env.settings.lockoutSeconds_pos
  exact ⟨ev.before.now, ev, hev, hi, hf, Nat.le_refl _, by omega⟩

end Moves

/-- The counter of every world that login calls one at a time lead to. -/
theorem counts_after (env : Env) (now : Nat) (calls : List LoginCall) (e : String) :
    ∃ n ≤ env.settings.loginMaxAttempts, Counts ((LoginRun.start now).after env calls).world e n := by
  have hagrees := agrees_after env now calls e
  obtain ⟨n, hcounts, hplace⟩ := hagrees.counts
  have hle := place_le env.settings.attempts_pos ((LoginRun.start now).after env calls).world.now
    ((LoginRun.start now).after env calls).log (L := env.settings.lockoutSeconds) (e := e)
  exact ⟨n, by omega, hcounts⟩

/-- A login call for each thread. -/
def logins {ι : Type} (emails passwords : ι → String) (draws : ι → IssueDraws) (i : ι) : Request :=
  .login (emails i) (passwords i) (draws i)

section Runs
variable {ι : Type} [DecidableEq ι] (env : Env) {e : String} (emails passwords : ι → String)
  (draws : ι → IssueDraws)

theorem guarded_run (hemails : ∀ i, env.lower (emails i) = e) {w : World} {n : Nat}
    (hcounts : Counts w e n) (hn : n ≤ env.settings.loginMaxAttempts) {schedule : List (Act ι Nat)}
    (hmeets : (beside env w (logins emails passwords draws)).Along (machine env)
      (LeavesRoom env e passwords) schedule) :
    let c := (beside env w (logins emails passwords draws)).run (machine env) schedule
    ∃ φ, AllObey (machine env) (fun i => CheckMove env e (passwords i)) (fun _ => CheckEnd) φ c ∧
      Guarded env e passwords φ c := by
  intro c
  have hobey : AllObey (machine env) (fun i => CheckMove env e (passwords i)) (fun _ => CheckEnd)
      (fun _ => .before) (beside env w (logins emails passwords draws)) := by
    intro i
    have hi := login_program_obeys_check env (emails i) (passwords i) (draws i)
    rw [hemails i] at hi
    exact hi
  obtain ⟨φ, hobey', hguarded, -⟩ := run_invariant
    (J := fun φ c => Guarded env e passwords φ c)
    (fun φ c seconds hobey hJ hmeets => hJ.drift hobey hmeets)
    (fun φ c i cmd k φ' hobey hJ hp hm hmeets => hJ.move hobey hp hm hmeets)
    hobey (.start env hcounts hn _) hmeets
  exact ⟨φ, hobey', hguarded⟩

end Runs

/-- Any number of logins for one normalized email, in every order of their commands: a
window of one lockout without a successful login has at most as many checks of wrong
passwords as the threshold, provided every lock test that a wrong password passes leaves
room, no success comes in the middle of a lock-down, and the counter does not run out
between the INCR and the EXPIRE of a call. -/
theorem wrong_checks_bounded {ι : Type} [DecidableEq ι] (env : Env) (e : String)
    (emails passwords : ι → String) (hemails : ∀ i, env.lower (emails i) = e)
    (draws : ι → IssueDraws) (w : World) (n : Nat) (hcounts : Counts w e n)
    (hn : n ≤ env.settings.loginMaxAttempts) (schedule : List (Act ι Nat))
    (hmeets : (beside env w (logins emails passwords draws)).Along (machine env)
      (LeavesRoom env e passwords) schedule) :
    let c := (beside env w (logins emails passwords draws)).run (machine env) schedule
    (∀ s, NoSuccess env e c s → ∀ S : Finset ι, (∀ i ∈ S, ChecksWrong env e passwords c s i) →
      S.card ≤ env.settings.loginMaxAttempts) ∧
    ∀ i message, c.outcome i = some (.error (.invalidCredentialsError message)) →
      ∃ s, ChecksWrong env e passwords c s i := by
  intro c
  obtain ⟨φ, hobey, hguarded⟩ := guarded_run env emails passwords draws hemails hcounts hn hmeets
  refine ⟨?_, ?_⟩
  · intro s hs S hS
    exact hguarded.card_le hs hS
  · intro i message ho
    exact hguarded.checked hobey ho

/-- Logins beside each other that meet what any logins one at a time have left. -/
theorem wrong_checks_bounded_after {ι : Type} [DecidableEq ι] (env : Env) (now : Nat)
    (calls : List LoginCall) (e : String) (emails passwords : ι → String)
    (hemails : ∀ i, env.lower (emails i) = e) (draws : ι → IssueDraws)
    (schedule : List (Act ι Nat))
    (hmeets : (beside env ((LoginRun.start now).after env calls).world
      (logins emails passwords draws)).Along (machine env) (LeavesRoom env e passwords) schedule) :
    let c := (beside env ((LoginRun.start now).after env calls).world
      (logins emails passwords draws)).run (machine env) schedule
    ∀ s, NoSuccess env e c s → ∀ S : Finset ι, (∀ i ∈ S, ChecksWrong env e passwords c s i) →
      S.card ≤ env.settings.loginMaxAttempts := by
  intro c s hs S hS
  obtain ⟨n, hn, hcounts⟩ := counts_after env now calls e
  obtain ⟨φ, -, hguarded⟩ := guarded_run env emails passwords draws hemails hcounts hn hmeets
  exact hguarded.card_le hs hS

/-! ### Guessing -/

instance {ι : Type} (env : Env) (e password : String)
    (ev : Lib.Interleaving.Event Cmd.Val Exc World ι) : Decidable (FailedCheck env e password ev) := by
  unfold FailedCheck
  split <;> infer_instance

instance {ι : Type} (env : Env) (s : Nat) (ev : Lib.Interleaving.Event Cmd.Val Exc World ι) :
    Decidable (WithinLockout env s ev) := inferInstanceAs (Decidable (_ ∧ _))

instance {ι : Type} [DecidableEq ι] (env : Env) (e : String) (password : ι → String)
    (c : Threads ι) (s : Nat) (i : ι) : Decidable (ChecksWrong env e password c s i) :=
  inferInstanceAs (Decidable (∃ ev ∈ c.log, _))

instance {ι : Type} (env : Env) (e : String) (c : Threads ι) (s : Nat) :
    Decidable (NoSuccess env e c s) := inferInstanceAs (Decidable (∀ ev ∈ c.log, _))

instance (env : Env) (e password : String) (w : World) : Decidable (WrongFor env e password w) :=
  inferInstanceAs (Decidable (_ = none))

instance {ι : Type} (env : Env) (e : String) (password : ι → String) (c : Threads ι) (i : ι) :
    Decidable (UnderWay env e password c i) := inferInstanceAs (Decidable (_ ∨ _))

instance {ι : Type} (env : Env) (e : String) (c : Threads ι) (i : ι) :
    Decidable (LockingDown env e c i) := inferInstanceAs (Decidable (_ ∨ _))

instance {ι : Type} [Fintype ι] [DecidableEq ι] (env : Env) (e : String) (password : ι → String)
    (c : Threads ι) (a : Act ι Nat) : Decidable (LeavesRoom env e password c a) := by
  cases a <;> unfold LeavesRoom <;> infer_instance

def guesses (k : Nat) : Fin k → Request :=
  logins (fun _ => "ada@example.com") (fun _ => "guess") (fun _ => plainDraws .one)

/-- Each of six calls is served before the next one begins. -/
def inTurn : List (Act (Fin 6) Nat) :=
  (List.finRange 6).flatMap fun i => List.replicate 8 (.step i)

/-- One after the other, five of six guesses are checked. -/
theorem wrong_checks_bounded_serial :
    let c := (beside plainEnv adaAlone (guesses 6)).run (machine plainEnv) inTurn
    (∀ i, ChecksWrong plainEnv "ada@example.com" (fun _ => "guess") c 1000 i ↔ i ≠ 5) ∧
    ∀ s, NoSuccess plainEnv "ada@example.com" c s → ∀ S : Finset (Fin 6),
      (∀ i ∈ S, ChecksWrong plainEnv "ada@example.com" (fun _ => "guess") c s i) → S.card ≤ 5 := by
  intro c
  have hmeets : (beside plainEnv adaAlone (guesses 6)).Along (machine plainEnv)
      (LeavesRoom plainEnv "ada@example.com" (fun _ => "guess")) inTurn := by decide +kernel
  have hbounded := wrong_checks_bounded plainEnv "ada@example.com" (fun _ => "ada@example.com")
    (fun _ => "guess") (fun _ => by decide) (fun _ => plainDraws .one) adaAlone 0 (.inl ⟨rfl, rfl⟩)
    (by decide) inTurn hmeets
  exact ⟨by decide +kernel, hbounded.1⟩

-- six logins with the right password, the lock tested by all before any goes on
example : (beside plainEnv adaAlone (logins (fun _ : Fin 6 => "ada@example.com")
    (fun _ => "correct horse") (fun _ => plainDraws .one))).Along (machine plainEnv)
    (LeavesRoom plainEnv "ada@example.com" (fun _ => "correct horse"))
    ((List.finRange 6).map .step ++ (List.finRange 6).flatMap fun i =>
      List.replicate 10 (.step i)) := by decide +kernel

/-- Six guesses test the lock before the first of them is counted: all six are checked
against the account, where the threshold is five. -/
theorem wrong_checks_unbounded :
    let c := (beside plainEnv adaAlone (guesses 6)).run (machine plainEnv)
      ((List.finRange 6).map .step ++ (List.finRange 6).flatMap fun i => List.replicate 6 (.step i))
    NoSuccess plainEnv "ada@example.com" c 1000 ∧
      (∀ i, ChecksWrong plainEnv "ada@example.com" (fun _ => "guess") c 1000 i) ∧
      (∀ i, c.outcome i = some (.error (.invalidCredentialsError "Invalid email or password."))) ∧
      ¬ (Finset.univ : Finset (Fin 6)).card ≤ plainEnv.settings.loginMaxAttempts := by
  decide +kernel

end TaskMgtApp.Auth
