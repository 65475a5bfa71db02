import TaskMgtApp.Auth.Serial

/-!
# Serial runs and their history

A run serves one request after the other and lets time pass in between. Beside
the world it keeps the log of what was served, the latest first: statements
about a whole run are statements about this log. A run starts with any table of
users and nothing in Redis.
-/
namespace TaskMgtApp.Auth

open TaskMgtApp.Common
open TaskMgtApp.Lib.ExpiringStore

/-- One request of the log: when it was served, and what came back. -/
structure Served where
  time : Nat
  request : Request
  outcome : Except Exc Reply

inductive Event where
  | wait (seconds : Nat)
  | request (r : Request)

structure Run where
  world : World
  log : List Served

namespace Run

/-- The beginning of a run at second `now`, with the accounts `users`. -/
def start (now : Nat) (users : List User) : Run where
  world := { now := now, redis := Store.empty, users := users, issued := [] }
  log := []

def step (env : Env) (h : Run) : Event → Run
  | .wait seconds => { h with world := { h.world with now := h.world.now + seconds } }
  | .request r =>
    { world := (serve env h.world r).2
      log := ⟨h.world.now, r, (serve env h.world r).1⟩ :: h.log }

def after (env : Env) (h : Run) (events : List Event) : Run := events.foldl (step env) h

@[simp] theorem after_nil (env : Env) (h : Run) : h.after env [] = h := rfl
@[simp] theorem after_cons (env : Env) (h : Run) (e : Event) (es : List Event) :
    h.after env (e :: es) = (h.step env e).after env es := rfl
@[simp] theorem step_wait_log (env : Env) (h : Run) (n : Nat) :
    (h.step env (.wait n)).log = h.log := rfl
theorem step_request (env : Env) (h : Run) (r : Request) :
    h.step env (.request r) =
      ⟨(serve env h.world r).2, ⟨h.world.now, r, (serve env h.world r).1⟩ :: h.log⟩ := rfl

end Run

/-! ## Random draws -/

/-- The `jti`s a request draws for the tokens it may issue. -/
def Request.jtis : Request → List UUID
  | .login _ _ d | .refreshAccessToken _ d => [d.accessJti, d.refreshJti]
  | _ => []

/-- The one-time token a request draws. -/
def Request.oneTimeTokens : Request → List String
  | .register _ _ _ d => [d.token]
  | .requestPasswordReset _ token => [token]
  | _ => []

def Event.requests : Event → List Request
  | .wait _ => []
  | .request r => [r]

/-- No draw of these requests repeats. -/
def Fresh (requests : List Request) : Prop :=
  (requests.flatMap Request.jtis).Nodup ∧ (requests.flatMap Request.oneTimeTokens).Nodup

instance (requests : List Request) : Decidable (Fresh requests) :=
  inferInstanceAs (Decidable (_ ∧ _))

theorem Fresh.of_append {a b : List Request} (h : Fresh (a ++ b)) : Fresh a := by
  unfold Fresh at h ⊢
  simp only [List.flatMap_append] at h
  exact ⟨(List.nodup_append.mp h.1).1, (List.nodup_append.mp h.2).1⟩

section Draws
variable {log : List Served} {r : Request}

theorem Fresh.jti_new (h : Fresh (log.reverse.map (·.request) ++ [r])) {s : Served} (hs : s ∈ log)
    {j j' : UUID} (hj : j ∈ s.request.jtis) (hj' : j' ∈ r.jtis) : j ≠ j' := by
  have hn := h.1
  simp only [List.flatMap_append, List.nodup_append] at hn
  exact hn.2.2 j (List.mem_flatMap.mpr ⟨s.request, by simpa using ⟨s, hs, rfl⟩, hj⟩) j' (by simpa using hj')

theorem Fresh.token_new (h : Fresh (log.reverse.map (·.request) ++ [r])) {s : Served} (hs : s ∈ log)
    {x x' : String} (hx : x ∈ s.request.oneTimeTokens) (hx' : x' ∈ r.oneTimeTokens) : x ≠ x' := by
  have hn := h.2
  simp only [List.flatMap_append, List.nodup_append] at hn
  exact hn.2.2 x (List.mem_flatMap.mpr ⟨s.request, by simpa using ⟨s, hs, rfl⟩, hx⟩) x' (by simpa using hx')

end Draws

theorem Run.after_append (env : Env) (h : Run) (es es' : List Event) :
    h.after env (es ++ es') = (h.after env es).after env es' := List.foldl_append ..

/-- The log holds the requests served, in their order. -/
theorem Run.requests_after (env : Env) (h : Run) (events : List Event) :
    (h.after env events).log.reverse.map (·.request) =
      h.log.reverse.map (·.request) ++ events.flatMap Event.requests := by
  induction events generalizing h with
  | nil => simp
  | cons e es ih =>
    rw [Run.after_cons, ih]
    cases e <;> simp [Event.requests, Run.step]

/-- A property of a run and of the draws still to come that each step preserves
holds at the end of every run with fresh draws. -/
theorem Run.after_induction {env : Env} {P : Run → Prop} {h : Run} {events : List Event}
    (hstart : P h) (hfresh : Fresh (h.log.reverse.map (·.request) ++ events.flatMap Event.requests))
    (hwait : ∀ h n, P h → P (h.step env (.wait n)))
    (hrequest : ∀ h r, P h → Fresh (h.log.reverse.map (·.request) ++ [r]) →
      P (h.step env (.request r))) :
    P (h.after env events) := by
  induction events generalizing h with
  | nil => exact hstart
  | cons e es ih =>
    rw [Run.after_cons]
    cases e with
    | wait n =>
      apply ih (hwait h n hstart)
      simpa [Event.requests] using hfresh
    | request r =>
      have hsplit : h.log.reverse.map (·.request) ++ (Event.request r :: es).flatMap Event.requests =
          (h.log.reverse.map (·.request) ++ [r]) ++ es.flatMap Event.requests := by
        simp [Event.requests]
      rw [hsplit] at hfresh
      apply ih (hrequest h r hstart hfresh.of_append)
      simpa [Run.step] using hfresh

end TaskMgtApp.Auth
