import Mathlib.Logic.Basic

/-!
# Programs over atomic commands

A program issues commands one at a time. The reply to a command is a value or
an exception, and the continuation sees either, so an exception handler is part
of the program text. The same program is run to its end by `run` and is cut
into atomic steps by `Lib.Interleaving`; the meaning of a command is a
parameter of both.
-/
namespace TaskMgtApp.Lib.Program

variable {C : Type} {V : C → Type} {ε α β : Type}

/-- A program over commands `C` with values `V`: finished, or about to issue a command. -/
inductive Prog {C : Type} (V : C → Type) (ε α : Type) : Type where
  | done (result : Except ε α)
  | call (c : C) (k : Except ε (V c) → Prog V ε α)

namespace Prog

/-- Continue with `f` on a value, and stop on an exception. -/
def bind : Prog V ε α → (α → Prog V ε β) → Prog V ε β
  | done (.ok a), f => f a
  | done (.error e), _ => done (.error e)
  | call c k, f => call c fun r => (k r).bind f

/-- Run the handler `h` where the program would stop with an exception. -/
def catchExc : Prog V ε α → (ε → Prog V ε α) → Prog V ε α
  | done (.ok a), _ => done (.ok a)
  | done (.error e), h => h e
  | call c k, h => call c fun r => (k r).catchExc h

instance : Monad (Prog V ε) where
  pure a := done (.ok a)
  bind := bind

instance : MonadExceptOf ε (Prog V ε) where
  throw e := done (.error e)
  tryCatch := catchExc

/-- Issue one command and return its value. -/
def perform (c : C) : Prog V ε (V c) := call c done

/-- The command a program is about to issue. -/
def next : Prog V ε α → Option C
  | done _ => none
  | call c _ => some c

/-- The outcome of a finished program. -/
def outcome : Prog V ε α → Option (Except ε α)
  | done r => some r
  | call _ _ => none

@[simp] theorem pure_eq (a : α) : (pure a : Prog V ε α) = done (.ok a) := rfl
@[simp] theorem throw_eq (e : ε) : (throw e : Prog V ε α) = done (.error e) := rfl
@[simp] theorem done_ok_bind (a : α) (f : α → Prog V ε β) :
    (done (.ok a) : Prog V ε α) >>= f = f a := rfl
@[simp] theorem done_error_bind (e : ε) (f : α → Prog V ε β) :
    (done (.error e) : Prog V ε α) >>= f = done (.error e) := rfl
@[simp] theorem call_bind (c : C) (k : Except ε (V c) → Prog V ε α) (f : α → Prog V ε β) :
    call c k >>= f = call c fun r => k r >>= f := rfl
@[simp] theorem perform_bind (c : C) (f : V c → Prog V ε β) :
    (perform c : Prog V ε (V c)) >>= f = call c fun r => done r >>= f := rfl
@[simp] theorem done_ok_catch (a : α) (h : ε → Prog V ε α) :
    tryCatch (done (.ok a) : Prog V ε α) h = done (.ok a) := rfl
@[simp] theorem done_error_catch (e : ε) (h : ε → Prog V ε α) :
    tryCatch (done (.error e) : Prog V ε α) h = h e := rfl
@[simp] theorem call_catch (c : C) (k : Except ε (V c) → Prog V ε α) (h : ε → Prog V ε α) :
    tryCatch (call c k) h = call c fun r => tryCatch (k r) h := rfl
@[simp] theorem next_done (r : Except ε α) : (done r : Prog V ε α).next = none := rfl
@[simp] theorem next_call (c : C) (k : Except ε (V c) → Prog V ε α) :
    (call c k).next = some c := rfl
@[simp] theorem outcome_done (r : Except ε α) : (done r : Prog V ε α).outcome = some r := rfl
@[simp] theorem outcome_call (c : C) (k : Except ε (V c) → Prog V ε α) :
    (call c k).outcome = none := rfl

/-! ## Running a program to its end -/

section Run
variable {S : Type} (exec : (c : C) → S → Except ε (V c) × S)

/-- Run every command of the program in turn, from the state `s`. -/
def run : Prog V ε α → S → Except ε α × S
  | done r, s => (r, s)
  | call c k, s => (k (exec c s).1).run (exec c s).2

@[simp] theorem run_done (r : Except ε α) (s : S) :
    (done r : Prog V ε α).run exec s = (r, s) := rfl

theorem run_call (c : C) (k : Except ε (V c) → Prog V ε α) (s : S) :
    (call c k).run exec s = (k (exec c s).1).run exec (exec c s).2 := rfl

@[simp] theorem run_perform (c : C) (s : S) :
    (perform c : Prog V ε (V c)).run exec s = exec c s := rfl

/-- Sequencing runs the second program where the first one ends. -/
theorem run_bind (p : Prog V ε α) (f : α → Prog V ε β) (s : S) :
    (p >>= f).run exec s = match p.run exec s with
      | (.ok a, s') => (f a).run exec s'
      | (.error e, s') => (.error e, s') := by
  induction p generalizing s with
  | done r => cases r <;> rfl
  | call c k ih => simp only [call_bind, run_call, ih]

/-- A handler runs where the guarded program raises. -/
theorem run_catch (p : Prog V ε α) (h : ε → Prog V ε α) (s : S) :
    (tryCatch p h).run exec s = match p.run exec s with
      | (.ok a, s') => (.ok a, s')
      | (.error e, s') => (h e).run exec s' := by
  induction p generalizing s with
  | done r => cases r <;> rfl
  | call c k ih => simp only [call_catch, run_call, ih]

/-- What every command keeps, a run keeps. -/
theorem run_keeps {X : Type} {f : S → X} (hexec : ∀ c s, f (exec c s).2 = f s) (p : Prog V ε α) (s : S) :
    f (p.run exec s).2 = f s := by
  induction p generalizing s with
  | done r => rfl
  | call c k ih =>
    rw [run_call, ih]
    exact hexec c s

end Run

/-! ## The commands a program may issue -/

/-- Whatever its commands return, the program issues only commands in `Q`. -/
def Only (Q : C → Prop) : Prog V ε α → Prop
  | done _ => True
  | call c k => Q c ∧ ∀ r, (k r).Only Q

section Only
variable {Q : C → Prop}

@[simp] theorem only_done (r : Except ε α) : (done r : Prog V ε α).Only Q := trivial

@[simp] theorem only_perform {c : C} : (perform c : Prog V ε (V c)).Only Q ↔ Q c := by
  simp [perform, Only]

theorem Only.mono {P : C → Prop} (h : ∀ c, Q c → P c) {p : Prog V ε α} (hp : p.Only Q) : p.Only P := by
  induction p with
  | done r => trivial
  | call c k ih => exact ⟨h c hp.1, fun r => ih r (hp.2 r)⟩

/-- Commands that leave the state leave it in any order. -/
theorem Only.run_state {S : Type} {exec : (c : C) → S → Except ε (V c) × S} {s : S} {p : Prog V ε α}
    (hp : p.Only fun c => (exec c s).2 = s) : (p.run exec s).2 = s := by
  induction p with
  | done r => rfl
  | call c k ih =>
    rw [run_call, hp.1]
    exact ih _ (hp.2 _)

theorem Only.bind {p : Prog V ε α} {f : α → Prog V ε β} (hp : p.Only Q) (hf : ∀ a, (f a).Only Q) :
    (p >>= f).Only Q := by
  induction p with
  | done r =>
    cases r with
    | ok a => exact hf a
    | error e => trivial
  | call c k ih => exact ⟨hp.1, fun r => ih r (hp.2 r)⟩

theorem Only.catch {p : Prog V ε α} {h : ε → Prog V ε α} (hp : p.Only Q) (hh : ∀ e, (h e).Only Q) :
    (tryCatch p h).Only Q := by
  induction p with
  | done r =>
    cases r with
    | ok a => trivial
    | error e => exact hh e
  | call c k ih => exact ⟨hp.1, fun r => ih r (hp.2 r)⟩

end Only

/-! ## The number of commands -/

/-- Whatever its commands return, the program issues at most `n` of them. -/
def Within : Nat → Prog V ε α → Prop
  | _, done _ => True
  | 0, call _ _ => False
  | n + 1, call _ k => ∀ r, (k r).Within n

section Within
variable {n m : Nat}

@[simp] theorem within_done (r : Except ε α) : (done r : Prog V ε α).Within n := by
  cases n <;> exact trivial

theorem within_perform (c : C) : (perform c : Prog V ε (V c)).Within 1 := fun _ => within_done _

theorem Within.mono {p : Prog V ε α} (h : p.Within n) (hnm : n ≤ m) : p.Within m := by
  induction p generalizing n m with
  | done r => exact within_done r
  | call c k ih =>
    cases n with
    | zero => exact h.elim
    | succ n =>
      obtain ⟨m, rfl⟩ := Nat.exists_eq_add_of_le' (Nat.le_trans (Nat.le_add_left 1 n) hnm)
      exact fun r => ih r (h r) (Nat.le_of_succ_le_succ hnm)

theorem Within.bind {p : Prog V ε α} {f : α → Prog V ε β} (hp : p.Within n)
    (hf : ∀ a, (f a).Within m) : (p >>= f).Within (n + m) := by
  induction p generalizing n with
  | done r =>
    cases r with
    | ok a => exact (hf a).mono (Nat.le_add_left m n)
    | error e => exact within_done _
  | call c k ih =>
    cases n with
    | zero => exact hp.elim
    | succ n =>
      rw [Nat.succ_add]
      exact fun r => ih r (hp r)

theorem Within.catch {p : Prog V ε α} {h : ε → Prog V ε α} (hp : p.Within n)
    (hh : ∀ e, (h e).Within m) : (tryCatch p h).Within (n + m) := by
  induction p generalizing n with
  | done r =>
    cases r with
    | ok a => exact within_done _
    | error e => exact (hh e).mono (Nat.le_add_left m n)
  | call c k ih =>
    cases n with
    | zero => exact hp.elim
    | succ n =>
      rw [Nat.succ_add]
      exact fun r => ih r (hp r)

end Within

end Prog

end TaskMgtApp.Lib.Program
