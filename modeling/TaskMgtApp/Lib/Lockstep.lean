import TaskMgtApp.Lib.Interleaving
import Mathlib.Data.Option.Basic

/-!
# Programs in step

Two programs are in step if each command of one is matched by a command of the other,
whatever matching replies come back, and their results match. Which commands match, and
which replies to them, is a parameter. Run on a machine on which matching commands leave
worlds alike and return matching replies, in the same order of turns, threads in step stay
in step.
-/
namespace TaskMgtApp.Lib.Lockstep

open TaskMgtApp.Lib.Program TaskMgtApp.Lib.Interleaving

variable {C : Type} {V : C → Type} {ε α β γ δ L W E ι : Type}

/-- The commands that match, each pair with the replies that match. -/
abbrev Matching (V : C → Type) (ε : Type) : Type :=
  (c d : C) → (Except ε (V c) → Except ε (V d) → Prop) → Prop

/-- Values that are related, or the same exception. -/
inductive Lift (S : α → β → Prop) : Except ε α → Except ε β → Prop
  | ok {a : α} {b : β} (h : S a b) : Lift S (.ok a) (.ok b)
  | error {e : ε} : Lift S (.error e) (.error e)

/-- The programs are in step, and end with related values or the same exception. -/
inductive Similar (M : Matching V ε) (S : α → β → Prop) : Prog V ε α → Prog V ε β → Prop
  | done {a : Except ε α} {b : Except ε β} (h : Lift S a b) : Similar M S (.done a) (.done b)
  | call {c d : C} {k : Except ε (V c) → Prog V ε α} {l : Except ε (V d) → Prog V ε β}
      {Q : Except ε (V c) → Except ε (V d) → Prop} (h : M c d Q)
      (hk : ∀ x y, Q x y → Similar M S (k x) (l y)) : Similar M S (.call c k) (.call d l)

section Programs
variable {M : Matching V ε} {S : α → β → Prop} {T : γ → δ → Prop} {p : Prog V ε α} {q : Prog V ε β}

theorem Similar.pure {a : α} {b : β} (h : S a b) : Similar M S (Prog.done (.ok a)) (.done (.ok b)) :=
  .done (.ok h)

theorem Similar.throw {e : ε} : Similar M S (Prog.done (.error e)) (.done (.error e)) :=
  .done .error

theorem Similar.bind {f : α → Prog V ε γ} {g : β → Prog V ε δ} (h : Similar M S p q)
    (hf : ∀ a b, S a b → Similar M T (f a) (g b)) : Similar M T (p >>= f) (q >>= g) := by
  induction h with
  | done h =>
    cases h with
    | ok h => exact hf _ _ h
    | error => exact .throw
  | call h _ ih => exact .call h ih

theorem Similar.catch {f : ε → Prog V ε α} {g : ε → Prog V ε β} (h : Similar M S p q)
    (hf : ∀ e, Similar M S (f e) (g e)) : Similar M S (tryCatch p f) (tryCatch q g) := by
  induction h with
  | done h =>
    cases h with
    | ok h => exact .pure h
    | error => exact hf _
  | call h _ ih => exact .call h ih

/-- A program is in step with itself if its commands match themselves. -/
theorem Similar.of_only {Q : C → Prop} {p : Prog V ε α} (h : p.Only Q) (hQ : ∀ c, Q c → M c c Eq) :
    Similar M Eq p p := by
  induction p with
  | done a =>
    cases a with
    | ok a => exact .pure rfl
    | error e => exact .throw
  | call c k ih =>
    refine .call (hQ c h.1) fun x y hxy => ?_
    subst hxy
    exact ih x (h.2 x)

theorem Similar.mono {S' : α → β → Prop} (h : Similar M S p q) (hS : ∀ a b, S a b → S' a b) :
    Similar M S' p q := by
  induction h with
  | done h =>
    cases h with
    | ok h => exact .pure (hS _ _ h)
    | error => exact .throw
  | call h _ ih => exact .call h ih

end Programs

/-- Matching commands, from the same local state and worlds alike, return matching replies
and leave the same local state and worlds alike. -/
structure Respects (m : Machine V ε L W E) (M : Matching V ε) (View : W → W → Prop) : Prop where
  exec : ∀ {c d Q}, M c d Q → ∀ l v w, View v w →
    Q (m.exec c (l, v)).1 (m.exec d (l, w)).1 ∧ (m.exec c (l, v)).2.1 = (m.exec d (l, w)).2.1 ∧
      View (m.exec c (l, v)).2.2 (m.exec d (l, w)).2.2
  drift : ∀ e v w, View v w → View (m.drift e v) (m.drift e w)

/-- Thread by thread in step, in worlds alike. -/
structure InStep (M : Matching V ε) (View : W → W → Prop) (S : ι → α → β → Prop)
    (c : Config V ε α L W ι) (d : Config V ε β L W ι) : Prop where
  locals : ∀ i, (c.threads i).locals = (d.threads i).locals
  progs : ∀ i, Similar M (S i) (c.threads i).prog (d.threads i).prog
  world : View c.world d.world

section Runs
variable {m : Machine V ε L W E} {M : Matching V ε} {View : W → W → Prop} {S : ι → α → β → Prop}
  {c : Config V ε α L W ι} {d : Config V ε β L W ι}

theorem InStep.outcome (h : InStep M View S c d) (i : ι) :
    Option.Rel (Lift (S i)) (c.outcome i) (d.outcome i) := by
  have hsimilar := h.progs i
  unfold Config.outcome
  generalize (c.threads i).prog = p at hsimilar
  generalize (d.threads i).prog = q at hsimilar
  cases hsimilar with
  | done h => exact .some h
  | call => exact .none

variable [DecidableEq ι]

theorem InStep.step (hm : Respects m M View) (h : InStep M View S c d) (a : Act ι E) :
    InStep M View S (c.step m a) (d.step m a) := by
  cases a with
  | drift e => exact ⟨h.locals, h.progs, hm.drift e _ _ h.world⟩
  | step i =>
    have hsimilar := h.progs i
    generalize hp : (c.threads i).prog = p at hsimilar
    generalize hq : (d.threads i).prog = q at hsimilar
    cases hsimilar with
    | done _ =>
      rw [Config.step_of_done hp, Config.step_of_done hq]
      exact h
    | @call cmd cmd' k l Q hcmd hk =>
      rw [Config.step_of_call hp, Config.step_of_call hq]
      obtain ⟨hreply, hlocals, hworld⟩ := hm.exec hcmd (c.threads i).locals c.world d.world h.world
      rw [h.locals i] at hreply hlocals hworld
      refine ⟨fun j => ?_, fun j => ?_, ?_⟩
      · by_cases hj : j = i
        · subst hj
          rw [Config.threads_issue_self, Config.threads_issue_self, h.locals j]
          exact hlocals
        · rw [Config.threads_issue_of_ne hj, Config.threads_issue_of_ne hj]
          exact h.locals j
      · by_cases hj : j = i
        · subst hj
          rw [Config.threads_issue_self, Config.threads_issue_self, h.locals j]
          exact hk _ _ hreply
        · rw [Config.threads_issue_of_ne hj, Config.threads_issue_of_ne hj]
          exact h.progs j
      · rw [Config.world_issue, Config.world_issue, h.locals i]
        exact hworld

/-- In the same order of turns, threads in step stay in step. -/
theorem InStep.run (hm : Respects m M View) (h : InStep M View S c d) (schedule : List (Act ι E)) :
    InStep M View S (c.run m schedule) (d.run m schedule) := by
  induction schedule generalizing c d with
  | nil => exact h
  | cons a as ih => exact ih (h.step hm a)

end Runs

end TaskMgtApp.Lib.Lockstep
