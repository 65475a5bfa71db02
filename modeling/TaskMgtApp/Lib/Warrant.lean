import TaskMgtApp.Lib.Interleaving

/-!
# Commands warranted by what was heard before

A thread knows the replies to its own commands and nothing else. `Warranted` says on the
program text that what the thread has heard admits each of its commands and each value it
returns, whatever runs beside it. What a thread has heard is read off the log (`heard`).
-/
namespace TaskMgtApp.Lib.Warrant

open TaskMgtApp.Lib.Program TaskMgtApp.Lib.Interleaving

variable {C : Type} {V : C → Type} {ε α β L W ι : Type}

/-- The commands of one thread with their replies, the latest first. -/
abbrev Hearing {C : Type} (V : C → Type) (ε : Type) := List ((c : C) × Except ε (V c))

/-- The value `v` has come back for the command `c`. -/
def Hearing.Told (h : Hearing V ε) (c : C) (v : V c) : Prop := ⟨c, .ok v⟩ ∈ h

/-- The command is admitted after `h`, and its reply is heard next. -/
def Admitted (exec : (c : C) → L × W → Except ε (V c) × (L × W)) (May : Hearing V ε → C → Prop)
    (h : Hearing V ε) (c : C) (s : L × W) (h' : Hearing V ε) : Prop :=
  May h c ∧ h' = ⟨c, (exec c s).1⟩ :: h

/-- From `h` on, what has been heard admits each command, and `P` each value returned. -/
def Warranted (exec : (c : C) → L × W → Except ε (V c) × (L × W)) (May : Hearing V ε → C → Prop)
    (P : Hearing V ε → α → Prop) (h : Hearing V ε) (p : Prog V ε α) : Prop :=
  Obeys exec (Admitted exec May) (fun h' r => ∀ a, r = .ok a → P h' a) h p

section Programs
variable {exec : (c : C) → L × W → Except ε (V c) × (L × W)} {May : Hearing V ε → C → Prop}
  {P : Hearing V ε → α → Prop} {Q : Hearing V ε → β → Prop} {h h' : Hearing V ε} {c : C}

theorem Hearing.Told.head {v : V c} : Hearing.Told (⟨c, .ok v⟩ :: h) c v := List.mem_cons_self

theorem Hearing.Told.later {v : V c} {x : (c : C) × Except ε (V c)} (ht : h.Told c v) :
    Hearing.Told (x :: h) c v := List.mem_cons_of_mem x ht

theorem Hearing.Told.mono {v : V c} (ht : h.Told c v) (hsub : h ⊆ h') : h'.Told c v := hsub ht

theorem warranted_ok {a : α} (ha : P h a) : Warranted exec May P h (.done (.ok a) : Prog V ε α) := by
  intro b hb
  obtain rfl := Except.ok.inj hb
  exact ha

theorem warranted_error (e : ε) : Warranted exec May P h (.done (.error e) : Prog V ε α) := by
  intro b hb
  cases hb

theorem warranted_call {k : Except ε (V c) → Prog V ε α} (hc : May h c)
    (hk : ∀ reply, Warranted exec May P (⟨c, reply⟩ :: h) (k reply)) :
    Warranted exec May P h (.call c k) :=
  fun _ => ⟨_, ⟨hc, rfl⟩, hk _⟩

/-- One command, and the rest where it returns a value. -/
theorem warranted_perform {f : V c → Prog V ε α} (hc : May h c)
    (hf : ∀ v, Warranted exec May P (⟨c, .ok v⟩ :: h) (f v)) :
    Warranted exec May P h (Prog.perform c >>= f) := by
  rw [Prog.perform_bind]
  refine warranted_call hc fun reply => ?_
  cases reply with
  | ok v => exact hf v
  | error e => exact warranted_error e

/-- What has been heard stays heard. -/
theorem Warranted.extends {p : Prog V ε α} (hp : Warranted exec May P h p) :
    Obeys exec (Admitted exec May) (fun h' r => h ⊆ h' ∧ ∀ a, r = .ok a → P h' a) h p := by
  induction p generalizing h with
  | done r => exact ⟨List.Subset.refl h, hp⟩
  | call c k ih =>
    intro s
    obtain ⟨_, ⟨hc, rfl⟩, hk⟩ := hp s
    refine ⟨_, ⟨hc, rfl⟩, (ih _ hk).map (f := id) (fun _ _ _ _ hm => hm) ?_⟩
    exact fun h' r hr => ⟨List.Subset.trans (List.subset_cons_self ..) hr.1, hr.2⟩

theorem Warranted.bind {p : Prog V ε α} {f : α → Prog V ε β} (hp : Warranted exec May P h p)
    (hf : ∀ h' a, h ⊆ h' → P h' a → Warranted exec May Q h' (f a)) :
    Warranted exec May Q h (p >>= f) := by
  refine Obeys.bind hp.extends ?_ ?_
  · exact fun h' a hr => hf h' a hr.1 (hr.2 a rfl)
  · intro h' e _ b hb
    cases hb

theorem Warranted.catch {p : Prog V ε α} {handler : ε → Prog V ε α} (hp : Warranted exec May P h p)
    (hh : ∀ h' e, h ⊆ h' → Warranted exec May P h' (handler e)) :
    Warranted exec May P h (tryCatch p handler) := by
  refine Obeys.catch hp.extends ?_ ?_
  · intro h' a hr b hb
    exact hr.2 b hb
  · exact fun h' e hr => hh h' e hr.1

end Programs

/-! ## Logs -/

section Logs
variable {C' : Type} {V' : C' → Type} [DecidableEq ι]
  {part : ((c : C') × Except ε (V' c)) → Option ((c : C) × Except ε (V c))}
  {log : List (Event V' ε W ι)} {told : ι → Hearing V ε} {i j : ι} {x : (c : C) × Except ε (V c)}

/-- What thread `i` has heard by a log, of the commands that belong to a part of the system. -/
def heard (part : ((c : C') × Except ε (V' c)) → Option ((c : C) × Except ε (V c)))
    (log : List (Event V' ε W ι)) (i : ι) : Hearing V ε :=
  log.filterMap fun e => if e.thread = i then part ⟨e.command, e.reply⟩ else none

/-- A reply to a command of the part is heard by its thread. -/
theorem heard_cons {cmd : C'} {reply : Except ε (V' cmd)} {w : W} (hx : part ⟨cmd, reply⟩ = some x) :
    heard part (⟨i, cmd, reply, w⟩ :: log) =
      Function.update (heard part log) i (x :: heard part log i) := by
  funext j
  by_cases hj : j = i
  · subst hj
    simp [heard, hx]
  · simp [heard, hj, Ne.symm hj]

/-- A reply to any other command does not matter. -/
theorem heard_cons_of_none {cmd : C'} {reply : Except ε (V' cmd)} {w : W}
    (hx : part ⟨cmd, reply⟩ = none) :
    heard part (⟨i, cmd, reply, w⟩ :: log) = heard part log := by
  funext j
  simp [heard, hx]

theorem subset_update (told : ι → Hearing V ε) (i : ι) (x : (c : C) × Except ε (V c)) (j : ι) :
    told j ⊆ Function.update told i (x :: told i) j := by
  by_cases hj : j = i
  · subst hj
    rw [Function.update_self]
    exact List.subset_cons_self ..
  · rw [Function.update_of_ne hj]
    exact List.Subset.refl _

/-- What a thread is told next is the new reply, or it was told before. -/
theorem told_update {c : C} {v : V c} (h : (Function.update told i (x :: told i) j).Told c v) :
    x = ⟨c, .ok v⟩ ∨ (told j).Told c v := by
  by_cases hj : j = i
  · subst hj
    rw [Function.update_self] at h
    rcases List.mem_cons.mp h with h | h
    · exact .inl h.symm
    · exact .inr h
  · rw [Function.update_of_ne hj] at h
    exact .inr h

end Logs

end TaskMgtApp.Lib.Warrant
