import TaskMgtApp.Lib.Interleaving

/-!
# A program among others that keep to a rule

What happens to the world between two commands of a program is not known, but for a rule
that all others keep (`Rely`). A program `Ends` in `Q` if it does so whatever happens within
the rule; the rules for sequencing and for handlers are those of programs alone. A thread
is `Assured` of `Q` as long as the acts of others keep to the rule, and has it at its end.
-/
namespace TaskMgtApp.Lib.Rely

open TaskMgtApp.Lib.Program TaskMgtApp.Lib.Interleaving

variable {C : Type} {V : C → Type} {ε α β L W E ι : Type}

section Programs
variable (exec : (c : C) → L × W → Except ε (V c) × (L × W)) (Rely : W → W → Prop)

/-- Whatever happens within the rule after each command, the program ends as `Q` says. -/
def Ends (Q : Except ε α → L × W → Prop) : Prog V ε α → L × W → Prop
  | .done r, s => Q r s
  | .call c k, s => ∀ w, Rely (exec c s).2.2 w → Ends Q (k (exec c s).1) ((exec c s).2.1, w)

variable {exec Rely} {Q Q' : Except ε α → L × W → Prop} {R : Except ε β → L × W → Prop}
  {p : Prog V ε α} {s : L × W}

@[simp] theorem ends_done (r : Except ε α) : Ends exec Rely Q (.done r : Prog V ε α) s ↔ Q r s :=
  Iff.rfl

theorem ends_call {c : C} {k : Except ε (V c) → Prog V ε α} :
    Ends exec Rely Q (.call c k) s ↔
      ∀ w, Rely (exec c s).2.2 w → Ends exec Rely Q (k (exec c s).1) ((exec c s).2.1, w) :=
  Iff.rfl

theorem Ends.mono (h : Ends exec Rely Q p s) (hQ : ∀ r s, Q r s → Q' r s) :
    Ends exec Rely Q' p s := by
  induction p generalizing s with
  | done r => exact hQ r s h
  | call c k ih => exact fun w hw => ih _ (h w hw)

theorem Ends.bind {f : α → Prog V ε β} (h : Ends exec Rely Q p s)
    (hok : ∀ a s, Q (.ok a) s → Ends exec Rely R (f a) s)
    (herror : ∀ e s, Q (.error e) s → R (.error e) s) : Ends exec Rely R (p >>= f) s := by
  induction p generalizing s with
  | done r =>
    cases r with
    | ok a => exact hok a s h
    | error e => exact herror e s h
  | call c k ih => exact fun w hw => ih _ (h w hw)

theorem Ends.catch {f : ε → Prog V ε α} (h : Ends exec Rely Q p s)
    (hok : ∀ a s, Q (.ok a) s → Q' (.ok a) s)
    (herror : ∀ e s, Q (.error e) s → Ends exec Rely Q' (f e) s) :
    Ends exec Rely Q' (tryCatch p f) s := by
  induction p generalizing s with
  | done r =>
    cases r with
    | ok a => exact hok a s h
    | error e => exact herror e s h
  | call c k ih => exact fun w hw => ih _ (h w hw)

end Programs

section Threads
variable (m : Machine V ε L W E) (Rely : W → W → Prop) (Q : Except ε α → L × W → Prop)

/-- Thread `i` ends as `Q` says, if all others keep to the rule from now on. -/
def Assured (c : Config V ε α L W ι) (i : ι) : Prop :=
  ∀ w, Rely c.world w → Ends m.exec Rely Q (c.threads i).prog ((c.threads i).locals, w)

variable {m Rely Q} {c d : Config V ε α L W ι} {i : ι}

theorem Assured.others (h : Assured m Rely Q c i) (htrans : ∀ u v w, Rely u v → Rely v w → Rely u w)
    (hthread : d.threads i = c.threads i) (hworld : Rely c.world d.world) : Assured m Rely Q d i := by
  intro w hw
  rw [hthread]
  exact h w (htrans _ _ _ hworld hw)

theorem Assured.issue [DecidableEq ι] (h : Assured m Rely Q c i) (hrefl : ∀ w, Rely w w) {cmd : C}
    {k : Except ε (V cmd) → Prog V ε α} (hp : (c.threads i).prog = .call cmd k) :
    Assured m Rely Q (c.issue m i cmd k) i := by
  intro w hw
  have hnow := h c.world (hrefl _)
  rw [hp] at hnow
  rw [Config.threads_issue_self]
  exact hnow w hw

theorem Assured.outcome (h : Assured m Rely Q c i) (hrefl : ∀ w, Rely w w) {r : Except ε α}
    (hr : c.outcome i = some r) : Q r ((c.threads i).locals, c.world) := by
  have hnow := h c.world (hrefl _)
  unfold Config.outcome at hr
  cases hp : (c.threads i).prog with
  | done r' =>
    rw [hp] at hr hnow
    obtain rfl := Option.some.inj hr
    exact hnow
  | call cmd k =>
    rw [hp] at hr
    cases hr

end Threads

end TaskMgtApp.Lib.Rely
