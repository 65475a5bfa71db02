import TaskMgtApp.Lib.Program
import Mathlib.Logic.Function.Basic
import Mathlib.Data.Fintype.Defs

/-!
# Programs side by side, one command at a time

Each thread has a program and a state of its own; all share a world. A schedule
says at every point which thread issues its next command, or how the world moves
by itself. Any number of threads may be there, in any order.

To prove something about every schedule, a proof gives the threads phases. A
program `Obeys` the moves between phases whatever the others do to the world
between two of its commands; that is checked once on the program text. An
invariant of the whole configuration then only has to survive the moves
(`run_invariant`).
-/
namespace TaskMgtApp.Lib.Interleaving

open TaskMgtApp.Lib.Program

variable {C : Type} {V : C → Type} {ε α β L W E ι Φ : Type}

/-- What a command does to a local state and the world, and how the world moves by itself. -/
structure Machine {C : Type} (V : C → Type) (ε L W E : Type) where
  exec : (c : C) → L × W → Except ε (V c) × (L × W)
  drift : E → W → W

structure Thread {C : Type} (V : C → Type) (ε α L : Type) where
  locals : L
  prog : Prog V ε α

/-- One command that was issued, what it returned, and the world it met. -/
structure Event {C : Type} (V : C → Type) (ε W ι : Type) where
  thread : ι
  command : C
  reply : Except ε (V command)
  before : W

/-- The world, the threads, and the commands issued so far, the latest first. -/
structure Config {C : Type} (V : C → Type) (ε α L W ι : Type) where
  world : W
  threads : ι → Thread V ε α L
  log : List (Event V ε W ι)

inductive Act (ι E : Type) where
  | step (i : ι)
  | drift (e : E)

namespace Config

/-- What thread `i` returned, once it has finished. -/
def outcome (c : Config V ε α L W ι) (i : ι) : Option (Except ε α) := (c.threads i).prog.outcome

/-- The command thread `i` is about to issue. -/
def next (c : Config V ε α L W ι) (i : ι) : Option C := (c.threads i).prog.next

/-- Thread `i` has issued a command. -/
def Started (c : Config V ε α L W ι) (i : ι) : Prop := ∃ e ∈ c.log, e.thread = i

/-- Thread `i` has issued a command in the world `w`. -/
def Met (c : Config V ε α L W ι) (i : ι) (w : W) : Prop := ∃ e ∈ c.log, e.thread = i ∧ e.before = w

/-- No thread is between its first command and its end. -/
def AtRest (c : Config V ε α L W ι) : Prop := ∀ i, c.Started i → (c.outcome i).isSome

variable [DecidableEq ι] (m : Machine V ε L W E)

/-- Thread `i` issues `cmd` and goes on with `k`. -/
def issue (c : Config V ε α L W ι) (i : ι) (cmd : C) (k : Except ε (V cmd) → Prog V ε α) :
    Config V ε α L W ι :=
  let r := m.exec cmd ((c.threads i).locals, c.world)
  { world := r.2.2
    threads := Function.update c.threads i ⟨r.2.1, k r.1⟩
    log := ⟨i, cmd, r.1, c.world⟩ :: c.log }

/-- One act; a thread that has finished stays as it is. -/
def step (c : Config V ε α L W ι) : Act ι E → Config V ε α L W ι
  | .drift e => { c with world := m.drift e c.world }
  | .step i =>
    match (c.threads i).prog with
    | .done _ => c
    | .call cmd k => c.issue m i cmd k

/-- The configuration after a whole schedule. -/
def run (c : Config V ε α L W ι) (schedule : List (Act ι E)) : Config V ε α L W ι :=
  schedule.foldl (step m) c

/-- `P` holds of every configuration on the way and the act taken there. -/
def Along (P : Config V ε α L W ι → Act ι E → Prop) : Config V ε α L W ι → List (Act ι E) → Prop
  | _, [] => True
  | c, a :: as => P c a ∧ Along P (c.step m a) as

variable {m} {c : Config V ε α L W ι} {i j : ι} {cmd : C} {k : Except ε (V cmd) → Prog V ε α}

instance decidableAlong {P : Config V ε α L W ι → Act ι E → Prop} [∀ c a, Decidable (P c a)] :
    (c : Config V ε α L W ι) → (schedule : List (Act ι E)) → Decidable (Along m P c schedule)
  | _, [] => .isTrue trivial
  | c, a :: as =>
    have : Decidable (Along m P (c.step m a) as) := decidableAlong _ as
    inferInstanceAs (Decidable (P c a ∧ Along m P (c.step m a) as))

instance (c : Config V ε α L W ι) (i : ι) : Decidable (c.Started i) :=
  inferInstanceAs (Decidable (∃ e ∈ c.log, e.thread = i))

instance [Fintype ι] (c : Config V ε α L W ι) : Decidable c.AtRest :=
  inferInstanceAs (Decidable (∀ _, _ → _))

@[simp] theorem run_nil : c.run m [] = c := rfl
@[simp] theorem run_cons (a : Act ι E) (as : List (Act ι E)) :
    c.run m (a :: as) = (c.step m a).run m as := rfl
theorem run_append (as bs : List (Act ι E)) : c.run m (as ++ bs) = (c.run m as).run m bs :=
  List.foldl_append

theorem along_of_forall {P : Config V ε α L W ι → Act ι E → Prop} (h : ∀ c a, P c a)
    (schedule : List (Act ι E)) : Along m P c schedule := by
  induction schedule generalizing c with
  | nil => trivial
  | cons a as ih => exact ⟨h c a, ih⟩

/-- A condition on the acts alone. -/
theorem along_of_forall_mem {P : Act ι E → Prop} {schedule : List (Act ι E)}
    (h : ∀ a ∈ schedule, P a) : Along m (fun _ a => P a) c schedule := by
  induction schedule generalizing c with
  | nil => trivial
  | cons a as ih =>
    obtain ⟨ha, has⟩ := List.forall_mem_cons.mp h
    exact ⟨ha, ih has⟩

theorem Along.mono {P Q : Config V ε α L W ι → Act ι E → Prop} (h : ∀ c a, P c a → Q c a)
    {schedule : List (Act ι E)} (hP : Along m P c schedule) : Along m Q c schedule := by
  induction schedule generalizing c with
  | nil => trivial
  | cons a as ih => exact ⟨h c a hP.1, ih hP.2⟩

theorem along_append {P : Config V ε α L W ι → Act ι E → Prop} {as bs : List (Act ι E)} :
    Along m P c (as ++ bs) ↔ Along m P c as ∧ Along m P (c.run m as) bs := by
  induction as generalizing c with
  | nil => simp [Along]
  | cons a as ih =>
    rw [List.cons_append, run_cons, Along, Along, ih, and_assoc]

/-- A run in which the condition fails somewhere meets it up to the first act where it does. -/
theorem exists_of_not_along {P : Config V ε α L W ι → Act ι E → Prop} {schedule : List (Act ι E)}
    (h : ¬ Along m P c schedule) : ∃ as a bs, schedule = as ++ a :: bs ∧ Along m P c as ∧
      ¬ P (c.run m as) a := by
  induction schedule generalizing c with
  | nil => exact absurd trivial h
  | cons a as ih =>
    by_cases ha : P c a
    · obtain ⟨as', b, bs, rfl, has', hb⟩ := ih fun has => h ⟨ha, has⟩
      exact ⟨a :: as', b, bs, rfl, ⟨ha, has'⟩, hb⟩
    · exact ⟨[], a, as, rfl, trivial, ha⟩

/-- Where two conditions hold along a run, both hold at each of its acts. -/
theorem Along.and {P Q : Config V ε α L W ι → Act ι E → Prop} {schedule : List (Act ι E)}
    (hP : Along m P c schedule) (hQ : Along m Q c schedule) :
    Along m (fun c a => P c a ∧ Q c a) c schedule := by
  induction schedule generalizing c with
  | nil => trivial
  | cons a as ih => exact ⟨⟨hP.1, hQ.1⟩, ih hP.2 hQ.2⟩

/-- What is left of a schedule when every act that has to wait at its turn is passed over. -/
def admitted (m : Machine V ε L W E) (waits : Config V ε α L W ι → Act ι E → Prop)
    [∀ c a, Decidable (waits c a)] : Config V ε α L W ι → List (Act ι E) → List (Act ι E)
  | _, [] => []
  | c, a :: as => if waits c a then admitted m waits c as else a :: admitted m waits (c.step m a) as

theorem along_admitted {waits : Config V ε α L W ι → Act ι E → Prop}
    [∀ c a, Decidable (waits c a)] (schedule : List (Act ι E)) :
    Along m (fun c a => ¬ waits c a) c (c.admitted m waits schedule) := by
  induction schedule generalizing c with
  | nil => trivial
  | cons a as ih =>
    by_cases ha : waits c a
    · simpa only [admitted, if_pos ha] using ih
    · simpa only [admitted, if_neg ha] using ⟨ha, ih⟩

@[simp] theorem world_drift (e : E) : (c.step m (.drift e)).world = m.drift e c.world := rfl
@[simp] theorem threads_drift (e : E) : (c.step m (.drift e)).threads = c.threads := rfl
@[simp] theorem log_drift (e : E) : (c.step m (.drift e)).log = c.log := rfl

@[simp] theorem world_issue :
    (c.issue m i cmd k).world = (m.exec cmd ((c.threads i).locals, c.world)).2.2 := rfl
@[simp] theorem log_issue : (c.issue m i cmd k).log =
    ⟨i, cmd, (m.exec cmd ((c.threads i).locals, c.world)).1, c.world⟩ :: c.log := rfl
@[simp] theorem threads_issue_self : (c.issue m i cmd k).threads i =
    ⟨(m.exec cmd ((c.threads i).locals, c.world)).2.1,
      k (m.exec cmd ((c.threads i).locals, c.world)).1⟩ := Function.update_self ..
theorem threads_issue_of_ne (h : j ≠ i) : (c.issue m i cmd k).threads j = c.threads j :=
  Function.update_of_ne h ..

theorem step_of_call (h : (c.threads i).prog = .call cmd k) :
    c.step m (.step i) = c.issue m i cmd k := by
  simp only [step, h]

theorem Started.step (h : c.Started i) (a : Act ι E) : (c.step m a).Started i := by
  cases a with
  | drift e => exact h
  | step j =>
    obtain ⟨e, he, hi⟩ := h
    cases hp : (c.threads j).prog with
    | done r => simpa only [Config.step, hp] using ⟨e, he, hi⟩
    | call cmd k =>
      rw [step_of_call hp]
      exact ⟨e, List.mem_cons_of_mem _ he, hi⟩

theorem Started.run (h : c.Started i) (schedule : List (Act ι E)) :
    (c.run m schedule).Started i := by
  induction schedule generalizing c with
  | nil => exact h
  | cons a as ih => exact ih (h.step a)

theorem started_issue : (c.issue m i cmd k).Started i := ⟨_, List.mem_cons_self .., rfl⟩

/-- A thread that has not issued a command is where it was. -/
theorem threads_of_not_started {a : Act ι E} (h : ¬ (c.step m a).Started i) :
    (c.step m a).threads i = c.threads i := by
  cases a with
  | drift e => rfl
  | step j =>
    cases hp : (c.threads j).prog with
    | done r => simp only [Config.step, hp]
    | call cmd k =>
      rw [step_of_call hp] at h ⊢
      refine threads_issue_of_ne ?_
      rintro rfl
      exact h started_issue

theorem met_issue : (c.issue m i cmd k).Met i c.world := ⟨_, List.mem_cons_self .., rfl, rfl⟩

theorem Met.issue {w : W} (h : c.Met j w) : (c.issue m i cmd k).Met j w := by
  obtain ⟨e, he, hj, hw⟩ := h
  exact ⟨e, List.mem_cons_of_mem _ he, hj, hw⟩

theorem step_of_done {r : Except ε α} (h : (c.threads i).prog = .done r) :
    c.step m (.step i) = c := by
  simp only [step, h]

/-- What a thread has returned stays. -/
theorem outcome_step {r : Except ε α} (h : c.outcome i = some r) (a : Act ι E) :
    (c.step m a).outcome i = some r := by
  cases a with
  | drift e => exact h
  | step j =>
    cases hp : (c.threads j).prog with
    | done r' =>
      rw [step_of_done hp]
      exact h
    | call cmd k =>
      have hij : i ≠ j := by
        rintro rfl
        rw [outcome, hp] at h
        cases h
      rw [step_of_call hp, outcome, threads_issue_of_ne hij]
      exact h

theorem outcome_run {r : Except ε α} (h : c.outcome i = some r) (schedule : List (Act ι E)) :
    (c.run m schedule).outcome i = some r := by
  induction schedule generalizing c with
  | nil => exact h
  | cons a as ih => exact ih (outcome_step h a)

/-- What a thread has returned on the way, it has returned at the end. -/
theorem along_outcome (schedule : List (Act ι E)) : Along m (fun d a => ∀ i r,
    (d.step m a).outcome i = some r → (c.run m schedule).outcome i = some r) c schedule := by
  induction schedule generalizing c with
  | nil => trivial
  | cons a as ih => exact ⟨fun i r hr => outcome_run hr as, ih⟩

end Config

/-- Whether the act is a turn of thread `i`. -/
def Act.isTurn [DecidableEq ι] (i : ι) : Act ι E → Bool
  | .step j => j = i
  | .drift _ => false

/-- How often a schedule gives thread `i` its turn. -/
def turns [DecidableEq ι] (i : ι) (schedule : List (Act ι E)) : Nat := schedule.countP (Act.isTurn i)

section Turns
variable [DecidableEq ι] {i j : ι}

theorem turns_nil : turns i ([] : List (Act ι E)) = 0 := rfl
theorem turns_drift (e : E) (as : List (Act ι E)) : turns i (.drift e :: as) = turns i as := rfl
theorem turns_step_self (as : List (Act ι E)) : turns i (.step i :: as) = turns i as + 1 := by
  simp [turns, Act.isTurn]
theorem turns_step_of_ne (h : j ≠ i) (as : List (Act ι E)) : turns i (.step j :: as) = turns i as := by
  simp [turns, Act.isTurn, h]

/-- A thread that issues at most `n` commands has finished after `n` turns. -/
theorem Config.exists_outcome_of_within {m : Machine V ε L W E} {c : Config V ε α L W ι} {n : Nat}
    (h : (c.threads i).prog.Within n) {schedule : List (Act ι E)} (hturns : n ≤ turns i schedule) :
    ∃ r, (c.run m schedule).outcome i = some r := by
  induction schedule generalizing c n with
  | nil =>
    obtain rfl : n = 0 := Nat.le_zero.mp hturns
    cases hp : (c.threads i).prog with
    | done r => exact ⟨r, congrArg Prog.outcome hp⟩
    | call cmd k =>
      rw [hp] at h
      exact h.elim
  | cons a as ih =>
    rw [Config.run_cons]
    cases a with
    | drift e =>
      rw [turns_drift] at hturns
      exact ih h hturns
    | step j =>
      cases hp : (c.threads j).prog with
      | done r =>
        rw [Config.step_of_done hp]
        by_cases hj : j = i
        · subst hj
          exact ⟨r, Config.outcome_run (congrArg Prog.outcome hp) as⟩
        · rw [turns_step_of_ne hj] at hturns
          exact ih h hturns
      | call cmd k =>
        rw [Config.step_of_call hp]
        by_cases hj : j = i
        · subst hj
          rw [turns_step_self] at hturns
          rw [hp] at h
          cases n with
          | zero => exact h.elim
          | succ n =>
            refine ih ?_ (Nat.le_of_succ_le_succ hturns)
            rw [Config.threads_issue_self]
            exact h _
        · rw [turns_step_of_ne hj] at hturns
          refine ih ?_ hturns
          rw [Config.threads_issue_of_ne (Ne.symm hj)]
          exact h

end Turns

/-! ## One thread at a time -/

/-- An act, and a turn so many times over. -/
def Act.times (n : Nat) : Act ι E → List (Act ι E)
  | .step i => List.replicate n (.step i)
  | .drift e => [.drift e]

section Alone
variable [DecidableEq ι] {m : Machine V ε L W E} {i : ι} {c : Config V ε α L W ι}

theorem Config.run_replicate_of_done {r : Except ε α} (h : (c.threads i).prog = .done r) (n : Nat) :
    c.run m (List.replicate n (.step i)) = c := by
  induction n with
  | zero => rfl
  | succ n ih => rw [List.replicate_succ, Config.run_cons, Config.step_of_done h, ih]

/-- Given turns enough, a thread alone runs its program to the end. -/
theorem Config.exists_run_alone (m : Machine V ε L W E) (c : Config V ε α L W ι) (i : ι) :
    ∃ n c', (∀ k, n ≤ k → c.run m (List.replicate k (.step i)) = c') ∧
      c'.world = ((c.threads i).prog.run m.exec ((c.threads i).locals, c.world)).2.2 ∧
      c'.outcome i = some ((c.threads i).prog.run m.exec ((c.threads i).locals, c.world)).1 ∧
      ∀ j, j ≠ i → c'.threads j = c.threads j := by
  generalize hp : (c.threads i).prog = p
  induction p generalizing c with
  | done r =>
    have houtcome : c.outcome i = some r := by rw [outcome, hp, Prog.outcome_done]
    exact ⟨0, c, fun k _ => run_replicate_of_done hp k, rfl, houtcome, fun _ _ => rfl⟩
  | call cmd k ih =>
    have hself : (c.issue m i cmd k).threads i = _ := threads_issue_self
    obtain ⟨n, c', hrun, hworld, houtcome, hothers⟩ :=
      ih _ (c.issue m i cmd k) (congrArg Thread.prog hself)
    rw [hself] at hworld houtcome
    refine ⟨n + 1, c', fun l hl => ?_, hworld, houtcome, fun j hj => ?_⟩
    · obtain ⟨l, rfl⟩ := Nat.exists_eq_add_of_le' hl
      rw [← Nat.add_assoc, List.replicate_succ, run_cons, step_of_call hp]
      exact hrun _ (Nat.le_add_left ..)
    · rw [hothers j hj, threads_issue_of_ne hj]

end Alone

/-! ## Phases -/

section Phases
variable (exec : (c : C) → L × W → Except ε (V c) × (L × W))

/-- From phase `φ` the program makes only moves of `R`, whatever state each of its
commands meets, and ends in a phase and with an outcome that `F` admits. -/
def Obeys (R : Φ → C → L × W → Φ → Prop) (F : Φ → Except ε α → Prop) : Φ → Prog V ε α → Prop
  | φ, .done r => F φ r
  | φ, .call c k => ∀ s, ∃ φ', R φ c s φ' ∧ Obeys R F φ' (k (exec c s).1)

/-- Whatever states its commands meet, the program issues a command in `P`. -/
def Inevitable (P : C → Prop) : Prog V ε α → Prop
  | .done _ => False
  | .call c k => P c ∨ ∀ s, Inevitable P (k (exec c s).1)

variable {exec} {R : Φ → C → L × W → Φ → Prop} {F : Φ → Except ε α → Prop}
  {G : Φ → Except ε β → Prop} {φ : Φ}

@[simp] theorem obeys_done (r : Except ε α) : Obeys exec R F φ (.done r : Prog V ε α) ↔ F φ r :=
  Iff.rfl

theorem obeys_call {c : C} {k : Except ε (V c) → Prog V ε α} :
    Obeys exec R F φ (.call c k) ↔ ∀ s, ∃ φ', R φ c s φ' ∧ Obeys exec R F φ' (k (exec c s).1) :=
  Iff.rfl

/-- A program obeys moves that always lead back to the phase it is in. -/
theorem obeys_of_stay (hstay : ∀ c s, R φ c s φ) (hfinal : ∀ r, F φ r) (p : Prog V ε α) :
    Obeys exec R F φ p := by
  induction p with
  | done r => exact hfinal r
  | call c k ih => exact fun s => ⟨φ, hstay c s, ih _⟩

/-- The command that a program is about to issue makes a move. -/
theorem Obeys.move_of_next {p : Prog V ε α} (hp : Obeys exec R F φ p) {c : C} (hnext : p.next = some c)
    (s : L × W) : ∃ φ', R φ c s φ' := by
  cases p with
  | done r => cases hnext
  | call c' k =>
    obtain rfl := Option.some.inj hnext
    obtain ⟨φ', hm, -⟩ := hp s
    exact ⟨φ', hm⟩

/-- A program in a phase where it cannot end is about to make a move. -/
theorem Obeys.exists_next {p : Prog V ε α} (hp : Obeys exec R F φ p) (hend : ∀ r, ¬ F φ r)
    (s : L × W) : ∃ c φ', p.next = some c ∧ R φ c s φ' := by
  cases p with
  | done r => exact absurd hp (hend r)
  | call c k =>
    obtain ⟨φ', hm, -⟩ := hp s
    exact ⟨c, φ', rfl, hm⟩

/-- Sequencing: the second program takes over in the phase where the first one ends. -/
theorem Obeys.bind {p : Prog V ε α} {f : α → Prog V ε β} (hp : Obeys exec R F φ p)
    (hok : ∀ φ a, F φ (.ok a) → Obeys exec R G φ (f a))
    (herror : ∀ φ e, F φ (.error e) → G φ (.error e)) : Obeys exec R G φ (p >>= f) := by
  induction p generalizing φ with
  | done r =>
    cases r with
    | ok a => exact hok φ a hp
    | error e => exact herror φ e hp
  | call c k ih =>
    intro s
    obtain ⟨φ', hm, hk⟩ := hp s
    exact ⟨φ', hm, ih _ hk⟩

/-- A handler takes over in the phase where the guarded program raises. -/
theorem Obeys.catch {G : Φ → Except ε α → Prop} {p : Prog V ε α} {h : ε → Prog V ε α}
    (hp : Obeys exec R F φ p) (hok : ∀ φ a, F φ (.ok a) → G φ (.ok a))
    (herror : ∀ φ e, F φ (.error e) → Obeys exec R G φ (h e)) :
    Obeys exec R G φ (tryCatch p h) := by
  induction p generalizing φ with
  | done r =>
    cases r with
    | ok a => exact hok φ a hp
    | error e => exact herror φ e hp
  | call c k ih =>
    intro s
    obtain ⟨φ', hm, hk⟩ := hp s
    exact ⟨φ', hm, ih _ hk⟩

/-- Phases may be told apart less finely. -/
theorem Obeys.map {Φ' : Type} {R' : Φ' → C → L × W → Φ' → Prop} {F' : Φ' → Except ε α → Prop}
    {f : Φ → Φ'} (hmove : ∀ φ c s φ', R φ c s φ' → R' (f φ) c s (f φ'))
    (hfinal : ∀ φ r, F φ r → F' (f φ) r) {p : Prog V ε α} (hp : Obeys exec R F φ p) :
    Obeys exec R' F' (f φ) p := by
  induction p generalizing φ with
  | done r => exact hfinal φ r hp
  | call c k ih =>
    intro s
    obtain ⟨φ', hm, hk⟩ := hp s
    exact ⟨f φ', hmove φ c s φ' hm, ih _ hk⟩

/-- A program in a phase of `A` comes to issue a command in `P`, if it cannot stop in
`A` and every move out of `A` issues one. -/
theorem Obeys.inevitable {P : C → Prop} {A : Φ → Prop} {p : Prog V ε α}
    (hp : Obeys exec R F φ p) (hφ : A φ) (hstop : ∀ φ r, A φ → ¬ F φ r)
    (hmove : ∀ φ c s φ', A φ → R φ c s φ' → P c ∨ A φ') [Nonempty (L × W)] :
    Inevitable exec P p := by
  induction p generalizing φ with
  | done r => exact absurd hp (hstop φ r hφ)
  | call c k ih =>
    by_cases hc : P c
    · exact .inl hc
    · right
      intro s
      obtain ⟨φ', hm, hk⟩ := hp s
      exact ih _ hk ((hmove φ c s φ' hφ hm).resolve_left hc)

end Phases

/-! ## Invariants of every run -/

section Invariants
variable {m : Machine V ε L W E} {R : ι → Φ → C → L × W → Φ → Prop}
  {F : ι → Φ → Except ε α → Prop} {J : (ι → Φ) → Config V ε α L W ι → Prop}
  {Meets : Config V ε α L W ι → Act ι E → Prop}

/-- Every thread obeys its moves from the phase it is in. -/
def AllObey (m : Machine V ε L W E) (R : ι → Φ → C → L × W → Φ → Prop)
    (F : ι → Φ → Except ε α → Prop) (φ : ι → Φ) (c : Config V ε α L W ι) : Prop :=
  ∀ i, Obeys m.exec (R i) (F i) (φ i) (c.threads i).prog

/-- A finished thread is in a phase that admits its outcome. -/
theorem AllObey.final {φ : ι → Φ} {c : Config V ε α L W ι} (h : AllObey m R F φ c) {i : ι}
    {r : Except ε α} (hr : c.outcome i = some r) : F i (φ i) r := by
  have hi := h i
  unfold Config.outcome at hr
  cases hp : (c.threads i).prog with
  | done r' =>
    rw [hp] at hr hi
    obtain rfl := Option.some.inj hr
    exact hi
  | call cmd k =>
    rw [hp] at hr
    cases hr

/-- A thread in a phase without moves has finished. -/
theorem AllObey.exists_outcome {φ : ι → Φ} {c : Config V ε α L W ι} (h : AllObey m R F φ c) {i : ι}
    (hstuck : ∀ cmd s φ', ¬ R i (φ i) cmd s φ') : ∃ r, c.outcome i = some r := by
  have hi := h i
  unfold Config.outcome
  cases hp : (c.threads i).prog with
  | done r => exact ⟨r, rfl⟩
  | call cmd k =>
    rw [hp] at hi
    obtain ⟨φ', hm, -⟩ := hi ((c.threads i).locals, c.world)
    exact absurd hm (hstuck _ _ _)

/-- A thread about to issue a command makes a move with it, and all go on obeying. -/
theorem AllObey.issue [DecidableEq ι] {φ : ι → Φ} {c : Config V ε α L W ι}
    (h : AllObey m R F φ c) {i : ι} {cmd : C} {k : Except ε (V cmd) → Prog V ε α}
    (hp : (c.threads i).prog = .call cmd k) :
    ∃ φ', R i (φ i) cmd ((c.threads i).locals, c.world) φ' ∧
      AllObey m R F (Function.update φ i φ') (c.issue m i cmd k) := by
  have hi := h i
  rw [hp] at hi
  obtain ⟨φ', hm, hk⟩ := hi ((c.threads i).locals, c.world)
  refine ⟨φ', hm, fun j => ?_⟩
  by_cases hj : j = i
  · subst hj
    simpa using hk
  · rw [Config.threads_issue_of_ne hj, Function.update_of_ne hj]
    exact h j

/-- A thread whose every move uses up a part of its budget has finished after as many turns,
however the other threads come between them. -/
theorem AllObey.exists_outcome_run [DecidableEq ι] (budget : Φ → Nat) {i : ι}
    (hmove : ∀ φ cmd s φ', R i φ cmd s φ' → budget φ' < budget φ) {φ : ι → Φ}
    {c : Config V ε α L W ι} (h : AllObey m R F φ c) {schedule : List (Act ι E)}
    (hturns : budget (φ i) ≤ turns i schedule) : ∃ r, (c.run m schedule).outcome i = some r := by
  induction schedule generalizing φ c with
  | nil =>
    refine h.exists_outcome fun cmd s φ' hm => ?_
    have hlt := hmove _ _ _ _ hm
    rw [turns_nil] at hturns
    omega
  | cons a as ih =>
    rw [Config.run_cons]
    cases a with
    | drift e =>
      rw [turns_drift] at hturns
      exact ih h hturns
    | step j =>
      cases hp : (c.threads j).prog with
      | done r =>
        rw [Config.step_of_done hp]
        by_cases hj : j = i
        · subst hj
          exact ⟨r, Config.outcome_run (by rw [Config.outcome, hp]; rfl) as⟩
        · rw [turns_step_of_ne hj] at hturns
          exact ih h hturns
      | call cmd k =>
        obtain ⟨φ', hm, hobey⟩ := h.issue hp
        rw [Config.step_of_call hp]
        refine ih hobey ?_
        by_cases hj : j = i
        · subst hj
          have hlt := hmove _ _ _ _ hm
          rw [turns_step_self] at hturns
          rw [Function.update_self]
          omega
        · rw [turns_step_of_ne hj] at hturns
          rw [Function.update_of_ne (Ne.symm hj)]
          exact hturns

/-- What holds of each thread's phase and local state holds after a move of thread `i` if
it holds of `i` then and held of the others before. -/
theorem forall_issue [DecidableEq ι] {P : ι → Φ → L → Prop} {φ : ι → Φ}
    {c : Config V ε α L W ι} {i : ι} {cmd : C} {k : Except ε (V cmd) → Prog V ε α} {φ' : Φ}
    (hi : P i φ' (m.exec cmd ((c.threads i).locals, c.world)).2.1)
    (hrest : ∀ j, j ≠ i → P j (φ j) (c.threads j).locals) (j : ι) :
    P j (Function.update φ i φ' j) ((c.issue m i cmd k).threads j).locals := by
  by_cases hj : j = i
  · subst hj
    rw [Function.update_self, Config.threads_issue_self]
    exact hi
  · rw [Function.update_of_ne hj, Config.threads_issue_of_ne hj]
    exact hrest j hj

/-- A thread in a phase of `P` after a move of thread `i` was in one before, if the move
does not take `i` into `P`. -/
theorem before_update [DecidableEq ι] {P : Φ → Prop} {φ : ι → Φ} {i : ι} {φ' : Φ}
    (hi : P φ' → P (φ i)) (j : ι) (hj : P (Function.update φ i φ' j)) : P (φ j) := by
  by_cases hji : j = i
  · subst hji
    rw [Function.update_self] at hj
    exact hi hj
  · rwa [Function.update_of_ne hji] at hj

/-- One thread at most is in a phase of `P` after a move of thread `i`, if that was so
before and the move takes `i` into `P` only where no other thread is. -/
theorem sole_update [DecidableEq ι] {P : Φ → Prop} {φ : ι → Φ} {i : ι} {φ' : Φ}
    (hsole : ∀ a b, P (φ a) → P (φ b) → a = b) (hnew : P φ' → ∀ j, j ≠ i → ¬ P (φ j)) (a b : ι)
    (ha : P (Function.update φ i φ' a)) (hb : P (Function.update φ i φ' b)) : a = b := by
  by_cases hai : a = i
  · by_cases hbi : b = i
    · rw [hai, hbi]
    · subst hai
      rw [Function.update_self] at ha
      rw [Function.update_of_ne hbi] at hb
      exact absurd hb (hnew ha b hbi)
  · rw [Function.update_of_ne hai] at ha
    by_cases hbi : b = i
    · subst hbi
      rw [Function.update_self] at hb
      exact absurd ha (hnew hb a hai)
    · rw [Function.update_of_ne hbi] at hb
      exact hsole a b ha hb

/-- An invariant of phases and configuration that survives every move of a thread
and every drift of the world holds after every schedule whose acts meet the
condition; a thread that has not started is still in its first phase. -/
theorem run_invariant [DecidableEq ι]
    (hdrift : ∀ φ c e, AllObey m R F φ c → J φ c → Meets c (.drift e) → J φ (c.step m (.drift e)))
    (hstep : ∀ φ c i cmd k φ', AllObey m R F φ c → J φ c → (c.threads i).prog = .call cmd k →
      R i (φ i) cmd ((c.threads i).locals, c.world) φ' → Meets c (.step i) →
      J (Function.update φ i φ') (c.issue m i cmd k))
    {φ : ι → Φ} {c : Config V ε α L W ι} (hobey : AllObey m R F φ c) (hJ : J φ c)
    {schedule : List (Act ι E)} (hmeets : c.Along m Meets schedule) :
    ∃ φ', AllObey m R F φ' (c.run m schedule) ∧ J φ' (c.run m schedule) ∧
      ∀ i, ¬ (c.run m schedule).Started i → φ' i = φ i := by
  induction schedule generalizing φ c with
  | nil => exact ⟨φ, hobey, hJ, fun _ _ => rfl⟩
  | cons a as ih =>
    obtain ⟨ha, has⟩ := hmeets
    rw [Config.run_cons]
    cases a with
    | drift e => exact ih hobey (hdrift φ c e hobey hJ ha) has
    | step i =>
      cases hp : (c.threads i).prog with
      | done r =>
        rw [Config.step_of_done hp] at has ⊢
        exact ih hobey hJ has
      | call cmd k =>
        obtain ⟨φ', hm, hobey'⟩ := hobey.issue hp
        rw [Config.step_of_call hp] at has ⊢
        obtain ⟨ψ, hψ, hJψ, hrest⟩ := ih hobey' (hstep φ c i cmd k φ' hobey hJ hp hm ha) has
        refine ⟨ψ, hψ, hJψ, fun j hj => ?_⟩
        have hne : j ≠ i := by
          rintro rfl
          exact hj (Config.started_issue.run as)
        rw [hrest j hj, Function.update_of_ne hne]

/-- What the invariant says of every act that meets the condition holds of every act of the
schedule. -/
theorem along_of_invariant [DecidableEq ι] {P : Config V ε α L W ι → Act ι E → Prop}
    (hdrift : ∀ φ c e, AllObey m R F φ c → J φ c → Meets c (.drift e) → J φ (c.step m (.drift e)))
    (hstep : ∀ φ c i cmd k φ', AllObey m R F φ c → J φ c → (c.threads i).prog = .call cmd k →
      R i (φ i) cmd ((c.threads i).locals, c.world) φ' → Meets c (.step i) →
      J (Function.update φ i φ') (c.issue m i cmd k))
    (himplies : ∀ φ c a, AllObey m R F φ c → J φ c → Meets c a → P c a)
    {φ : ι → Φ} {c : Config V ε α L W ι} (hobey : AllObey m R F φ c) (hJ : J φ c)
    {schedule : List (Act ι E)} (hmeets : c.Along m Meets schedule) : c.Along m P schedule := by
  induction schedule generalizing φ c with
  | nil => trivial
  | cons a as ih =>
    obtain ⟨ha, has⟩ := hmeets
    refine ⟨himplies φ c a hobey hJ ha, ?_⟩
    have hone : c.Along m Meets [a] := ⟨ha, trivial⟩
    obtain ⟨φ', hobey', hJ', -⟩ := run_invariant hdrift hstep hobey hJ hone
    exact ih hobey' hJ' has

/-- An invariant that survives every move and every drift, whatever the schedule. -/
theorem run_invariant_forall [DecidableEq ι]
    (hdrift : ∀ φ c e, AllObey m R F φ c → J φ c → J φ (c.step m (.drift e)))
    (hstep : ∀ φ c i cmd k φ', AllObey m R F φ c → J φ c → (c.threads i).prog = .call cmd k →
      R i (φ i) cmd ((c.threads i).locals, c.world) φ' →
      J (Function.update φ i φ') (c.issue m i cmd k))
    {φ : ι → Φ} {c : Config V ε α L W ι} (hobey : AllObey m R F φ c) (hJ : J φ c)
    (schedule : List (Act ι E)) :
    ∃ φ', AllObey m R F φ' (c.run m schedule) ∧ J φ' (c.run m schedule) := by
  have halong : c.Along m (fun _ _ => True) schedule :=
    Config.along_of_forall (fun _ _ => trivial) schedule
  obtain ⟨φ', hobey', hJ', -⟩ := run_invariant
    (fun φ c e ho hJ _ => hdrift φ c e ho hJ)
    (fun φ c i cmd k φ' ho hJ hp hm _ => hstep φ c i cmd k φ' ho hJ hp hm) hobey hJ halong
  exact ⟨φ', hobey', hJ'⟩

end Invariants

end TaskMgtApp.Lib.Interleaving
