import TaskMgtApp.Lib.Interleaving

/-!
# Threads that the others do not notice

One set of threads is run twice, the second time without the turns of some of them.
The threads that keep their turns go on alike if they cannot tell the two worlds apart:
what a left-out thread does to its world they do not see, and what one of them does
depends on what it sees (`Unwinding`).
-/
namespace TaskMgtApp.Lib.Noninterference

open TaskMgtApp.Lib.Program TaskMgtApp.Lib.Interleaving

variable {C : Type} {V : C → Type} {ε α L W E ι : Type}

/-- The schedule without the turns of the threads that are not kept. -/
def purge (keep : ι → Prop) [DecidablePred keep] (schedule : List (Act ι E)) : List (Act ι E) :=
  schedule.filter fun
    | .step i => keep i
    | .drift _ => true

section Purge
variable {keep : ι → Prop} [DecidablePred keep] {as : List (Act ι E)}

theorem purge_drift (e : E) : purge keep (.drift e :: as) = .drift e :: purge keep as := rfl

theorem purge_step {i : ι} (h : keep i) : purge keep (.step i :: as) = .step i :: purge keep as :=
  List.filter_cons_of_pos (by simpa using h)

theorem purge_step_of_not {i : ι} (h : ¬ keep i) : purge keep (.step i :: as) = purge keep as :=
  List.filter_cons_of_neg (by simpa using h)

end Purge

/-- A command has the same reply and leaves the same local state, and worlds alike. -/
structure Agree {T : Type} (View : W → W → Prop) (r s : T × (L × W)) : Prop where
  reply : r.1 = s.1
  locals : r.2.1 = s.2.1
  world : View r.2.2 s.2.2

theorem Agree.refl {T : Type} {View : W → W → Prop} (h : ∀ w, View w w) (r : T × (L × W)) :
    Agree View r r := ⟨rfl, rfl, h r.2.2⟩

/-- The kept threads stand where they stand in the other run, in worlds alike to them. -/
structure Aligned (keep : ι → Prop) (View : W → W → Prop) (c d : Config V ε α L W ι) : Prop where
  threads : ∀ i, keep i → c.threads i = d.threads i
  world : View c.world d.world

variable [DecidableEq ι] {m : Machine V ε L W E} {keep : ι → Prop} {View : W → W → Prop}
  {c d : Config V ε α L W ι} {i : ι} {cmd : C} {k : Except ε (V cmd) → Prog V ε α}

/-- A left-out thread takes its turn in the first run only. -/
theorem Aligned.respect (h : Aligned keep View c d) (hi : ¬ keep i)
    (hworld : View (c.issue m i cmd k).world d.world) : Aligned keep View (c.issue m i cmd k) d where
  threads j hj := by
    have hne : j ≠ i := fun he => hi (he ▸ hj)
    rw [Config.threads_issue_of_ne hne]
    exact h.threads j hj
  world := hworld

/-- A kept thread takes its turn in both. -/
theorem Aligned.consistent (h : Aligned keep View c d) (hi : keep i)
    (hagree : Agree View (m.exec cmd ((c.threads i).locals, c.world))
      (m.exec cmd ((c.threads i).locals, d.world))) :
    Aligned keep View (c.issue m i cmd k) (d.issue m i cmd k) where
  threads j hj := by
    by_cases hji : j = i
    · subst hji
      rw [Config.threads_issue_self, Config.threads_issue_self, ← h.threads j hj, hagree.reply,
        hagree.locals]
    · rw [Config.threads_issue_of_ne hji, Config.threads_issue_of_ne hji]
      exact h.threads j hj
  world := by
    rw [Config.world_issue, Config.world_issue, ← h.threads i hi]
    exact hagree.world

/-- What makes the left-out threads go unnoticed: time passes alike, a left-out thread
leaves its world as the others see it, and a kept one acts on what it sees. The
configurations of both runs satisfy `Inv`, the acts of the first one meet `Meets`. -/
structure Unwinding (m : Machine V ε L W E) (keep : ι → Prop) (View : W → W → Prop)
    (Inv : Config V ε α L W ι → Prop) (Meets : Config V ε α L W ι → Act ι E → Prop) : Prop where
  inv : ∀ c a, Inv c → Inv (c.step m a)
  drift : ∀ v w e, View v w → View (m.drift e v) (m.drift e w)
  respect : ∀ c i cmd k w, Inv c → ¬ keep i → (c.threads i).prog = .call cmd k →
    Meets c (.step i) → View c.world w → View (c.issue m i cmd k).world w
  consistent : ∀ c d i cmd k, Inv c → Inv d → keep i → (c.threads i).prog = .call cmd k →
    c.threads i = d.threads i → View c.world d.world →
    Agree View (m.exec cmd ((c.threads i).locals, c.world)) (m.exec cmd ((c.threads i).locals, d.world))

/-- With the turns of some threads left out of a schedule, the others are where they
were and see the world they saw. -/
theorem Unwinding.run_purge [DecidablePred keep] {Inv : Config V ε α L W ι → Prop}
    {Meets : Config V ε α L W ι → Act ι E → Prop} (h : Unwinding m keep View Inv Meets)
    (hc : Inv c) (hd : Inv d) (halike : Aligned keep View c d) {schedule : List (Act ι E)}
    (hmeets : c.Along m Meets schedule) :
    Aligned keep View (c.run m schedule) (d.run m (purge keep schedule)) := by
  induction schedule generalizing c d with
  | nil => exact halike
  | cons a as ih =>
    obtain ⟨ha, has⟩ := hmeets
    have hc' := h.inv c a hc
    rw [Config.run_cons]
    cases a with
    | drift e =>
      rw [purge_drift, Config.run_cons]
      exact ih hc' (h.inv d _ hd) ⟨halike.threads, h.drift _ _ e halike.world⟩ has
    | step i =>
      by_cases hi : keep i
      · rw [purge_step hi, Config.run_cons]
        refine ih hc' (h.inv d _ hd) ?_ has
        have hthread := halike.threads i hi
        cases hp : (c.threads i).prog with
        | done r =>
          have hp' : (d.threads i).prog = .done r := by rw [← hthread, hp]
          rw [Config.step_of_done hp, Config.step_of_done hp']
          exact halike
        | call cmd k =>
          have hp' : (d.threads i).prog = .call cmd k := by rw [← hthread, hp]
          rw [Config.step_of_call hp, Config.step_of_call hp']
          exact halike.consistent hi (h.consistent c d i cmd k hc hd hi hp hthread halike.world)
      · rw [purge_step_of_not hi]
        refine ih hc' hd ?_ has
        cases hp : (c.threads i).prog with
        | done r =>
          rw [Config.step_of_done hp]
          exact halike
        | call cmd k =>
          rw [Config.step_of_call hp]
          exact halike.respect hi (h.respect c i cmd k d.world hc hi hp ha halike.world)

end TaskMgtApp.Lib.Noninterference
