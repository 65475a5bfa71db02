import TaskMgtApp.Lib.Interleaving

/-!
# Programs over a part of the commands

A system may be put together from parts, each with commands, a state and programs of its
own. `Prog.via` runs a program of one part in the whole system. With nothing beside it, it
does there what it does in its part (`run_via`); and whatever moves it makes there it makes in
the whole (`Obeys.via`), however the other parts move.
-/
namespace TaskMgtApp.Lib

open TaskMgtApp.Lib.Program TaskMgtApp.Lib.Program.Prog TaskMgtApp.Lib.Interleaving

variable {C C' : Type} {V : C' → Type} {ε α L L' W W' Φ Φ' : Type}

/-- The program, with its commands among those of the whole system. -/
def Program.Prog.via (f : C → C') : Prog (fun c => V (f c)) ε α → Prog V ε α
  | .done r => .done r
  | .call c k => .call (f c) fun r => (k r).via f

section Laws
variable {β : Type} (f : C → C')

theorem Program.Prog.via_bind (p : Prog (fun c => V (f c)) ε α) (g : α → Prog (fun c => V (f c)) ε β) :
    (p >>= g).via f = p.via f >>= fun a => (g a).via f := by
  induction p with
  | done r => cases r <;> rfl
  | call c k ih => exact congrArg (Prog.call (f c)) (funext ih)

theorem Program.Prog.via_catch (p : Prog (fun c => V (f c)) ε α) (h : ε → Prog (fun c => V (f c)) ε α) :
    (tryCatch p h).via f = tryCatch (p.via f) fun e => (h e).via f := by
  induction p with
  | done r => cases r <;> rfl
  | call c k ih => exact congrArg (Prog.call (f c)) (funext ih)

/-- A program runs in the whole system as in its part, if each of its commands does. -/
theorem Program.Prog.run_via {S S' : Type} {exec : (c : C) → S → Except ε (V (f c)) × S}
    {exec' : (c : C') → S' → Except ε (V c) × S'} {R : S → S' → Prop}
    (hexec : ∀ c s s', R s s' →
      (exec' (f c) s').1 = (exec c s).1 ∧ R (exec c s).2 (exec' (f c) s').2)
    (p : Prog (fun c => V (f c)) ε α) {s : S} {s' : S'} (h : R s s') :
    ((p.via f).run exec' s').1 = (p.run exec s).1 ∧
      R (p.run exec s).2 ((p.via f).run exec' s').2 := by
  induction p generalizing s s' with
  | done r => exact ⟨rfl, h⟩
  | call c k ih =>
    obtain ⟨hreply, hnext⟩ := hexec c s s' h
    simp only [Prog.via, run_call, hreply]
    exact ih _ hnext

end Laws

/-- A program makes its moves in the whole system if its part of the state decides what its
commands return. -/
theorem Interleaving.Obeys.via {f : C → C'} {exec : (c : C) → L × W → Except ε (V (f c)) × (L × W)}
    {exec' : (c : C') → L' × W' → Except ε (V c) × (L' × W')} {R : Φ → C → L × W → Φ → Prop}
    {R' : Φ' → C' → L' × W' → Φ' → Prop} {F : Φ → Except ε α → Prop} {F' : Φ' → Except ε α → Prop}
    (part : L' × W' → L × W) (g : Φ → Φ')
    (hexec : ∀ c s, (exec' (f c) s).1 = (exec c (part s)).1)
    (hmove : ∀ φ c s φ', R φ c (part s) φ' → R' (g φ) (f c) s (g φ'))
    (hfinal : ∀ φ r, F φ r → F' (g φ) r) {φ : Φ} {p : Prog (fun c => V (f c)) ε α}
    (hp : Obeys exec R F φ p) : Obeys exec' R' F' (g φ) (p.via f) := by
  induction p generalizing φ with
  | done r => exact hfinal φ r hp
  | call c k ih =>
    intro s
    obtain ⟨φ', hm, hk⟩ := hp (part s)
    refine ⟨g φ', hmove φ c s φ' hm, ?_⟩
    rw [hexec]
    exact ih _ hk

end TaskMgtApp.Lib
