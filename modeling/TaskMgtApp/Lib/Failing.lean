import TaskMgtApp.Lib.Program

/-!
# Programs one of whose commands fails

Some commands may fail; one that fails raises its exception and changes nothing.
The run of a program is taken with a number that says how many fallible commands
still go through before one fails, or with none if none fails. Beside the state
it keeps the commands that went through.
-/
namespace TaskMgtApp.Lib.Failing

open TaskMgtApp.Lib.Program

variable {C : Type} {V : C → Type} {ε α S : Type}

/-- The state, the commands that went through, the latest first, and the number of
fallible commands before the one that fails. -/
structure Faulty (C S : Type) where
  left : Option Nat
  done : List C
  state : S

/-- A command goes through. -/
def Faulty.pass (exec : (c : C) → S → Except ε (V c) × S) (f : Faulty C S) (c : C)
    (left : Option Nat) : Faulty C S :=
  ⟨left, c :: f.done, (exec c f.state).2⟩

/-- The next fallible command fails, if it is its turn. -/
def failing (failure : C → Option ε) (exec : (c : C) → S → Except ε (V c) × S) (c : C)
    (f : Faulty C S) : Except ε (V c) × Faulty C S :=
  match failure c, f.left with
  | some e, some 0 => (.error e, { f with left := none })
  | some _, some (n + 1) => ((exec c f.state).1, f.pass exec c (some n))
  | _, left => ((exec c f.state).1, f.pass exec c left)

section Run
variable {failure : C → Option ε} {exec : (c : C) → S → Except ε (V c) × S} {c : C}
  {f : Faulty C S}

/-- A command goes through, or fails and changes nothing. -/
theorem failing_cases (failure : C → Option ε) (exec : (c : C) → S → Except ε (V c) × S) (c : C)
    (f : Faulty C S) :
    (∃ left, failing failure exec c f = ((exec c f.state).1, f.pass exec c left)) ∨
      ∃ e, failure c = some e ∧ failing failure exec c f = (.error e, { f with left := none }) := by
  unfold failing
  split
  · rename_i e he _
    exact .inr ⟨e, he, rfl⟩
  · exact .inl ⟨_, rfl⟩
  · exact .inl ⟨_, rfl⟩

/-- A command that cannot fail goes through. -/
theorem failing_infallible (h : failure c = none) :
    failing failure exec c f = ((exec c f.state).1, f.pass exec c f.left) := by
  unfold failing
  rw [h]

/-- Without a failure a program runs as it is. -/
theorem run_failing_none (failure : C → Option ε) (exec : (c : C) → S → Except ε (V c) × S)
    (p : Prog V ε α) (done : List C) (s : S) :
    (p.run (failing failure exec) ⟨none, done, s⟩).1 = (p.run exec s).1 ∧
      (p.run (failing failure exec) ⟨none, done, s⟩).2.state = (p.run exec s).2 := by
  induction p generalizing done s with
  | done r => exact ⟨rfl, rfl⟩
  | call c k ih =>
    have hpass : failing failure exec c ⟨none, done, s⟩ =
        ((exec c s).1, ⟨none, c :: done, (exec c s).2⟩) := by
      unfold failing
      cases failure c <;> rfl
    rw [Prog.run_call, hpass, Prog.run_call]
    exact ih ..

/-- What every command in `Q` preserves, and a failure too, holds after a program of
such commands. -/
structure Keeps (exec : (c : C) → S → Except ε (V c) × S) (Q : C → Prop) (I : Faulty C S → Prop) :
    Prop where
  pass : ∀ f c left, Q c → I f → I (f.pass exec c left)
  fail : ∀ f, I f → I { f with left := none }

variable {Q : C → Prop} {I : Faulty C S → Prop}

theorem Keeps.failing (h : Keeps exec Q I) (hc : Q c) (hf : I f) :
    I (failing failure exec c f).2 := by
  rcases failing_cases failure exec c f with ⟨left, heq⟩ | ⟨e, -, heq⟩
  · rw [heq]
    exact h.pass f c left hc hf
  · rw [heq]
    exact h.fail f hf

theorem Keeps.run (h : Keeps exec Q I) {p : Prog V ε α} (hp : p.Only Q) (hf : I f) :
    I (p.run (Failing.failing failure exec) f).2 := by
  induction p generalizing f with
  | done r => exact hf
  | call c k ih =>
    rw [Prog.run_call]
    exact ih _ (hp.2 _) (h.failing hp.1 hf)

end Run

/-! ## What a program returns -/

/-- Whatever its commands return, what the program returns is in `R`. -/
def Returns (R : α → Prop) : Prog V ε α → Prop
  | .done (.ok a) => R a
  | .done (.error _) => True
  | .call _ k => ∀ r, Returns R (k r)

theorem Returns.run {R : α → Prop} {p : Prog V ε α} (hp : Returns R p)
    {exec : (c : C) → S → Except ε (V c) × S} {s s' : S} {a : α} (h : p.run exec s = (.ok a, s')) :
    R a := by
  induction p generalizing s with
  | done r =>
    obtain rfl := (Prod.mk.inj h).1
    exact hp
  | call c k ih =>
    rw [Prog.run_call] at h
    exact ih _ (hp _) h

theorem Returns.bind {β : Type} {P : α → Prop} {R : β → Prop} {p : Prog V ε α} {f : α → Prog V ε β}
    (hp : Returns P p) (hf : ∀ a, P a → Returns R (f a)) : Returns R (p >>= f) := by
  induction p with
  | done r =>
    cases r with
    | ok a => exact hf a hp
    | error e => trivial
  | call c k ih => exact fun r => ih r (hp r)

/-- What any program returns, given only the one that follows it. -/
theorem Returns.after {β : Type} {R : β → Prop} (p : Prog V ε α) {f : α → Prog V ε β}
    (hf : ∀ a, Returns R (f a)) : Returns R (p >>= f) := by
  induction p with
  | done r =>
    cases r with
    | ok a => exact hf a
    | error e => trivial
  | call c k ih => exact fun r => ih r

theorem Returns.catch {R : α → Prop} {p : Prog V ε α} {h : ε → Prog V ε α} (hp : Returns R p)
    (hh : ∀ e, Returns R (h e)) : Returns R (tryCatch p h) := by
  induction p with
  | done r =>
    cases r with
    | ok a => exact hp
    | error e => exact hh e
  | call c k ih => exact fun r => ih r (hp r)

end TaskMgtApp.Lib.Failing
