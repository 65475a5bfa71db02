import TaskMgtApp.Work.Http
import TaskMgtApp.Work.Refinement

/-!
# Tenants do not see each other

What a request answers its user depends on the store of that user alone, and what
it writes it writes to the rows of that user (`handle_caller`, `handle_view`). So
the requests of one user can be taken out of a run without another user noticing.
-/
namespace TaskMgtApp.Work

open TaskMgtApp.Common
open TaskMgtApp.Lib TaskMgtApp.Lib.Rows

/-- A request, who makes it, and when. -/
structure HttpCall where
  user : UUID
  now : Nat
  request : HttpRequest

/-- One call, from the world it meets. -/
def HttpCall.handle (env : Env) (px : Pydantic) (w : World) (c : HttpCall) :
    Except Exc Reply × World :=
  Work.handle env px { w with now := c.now } c.user c.request

/-- Serve the calls one after the other; every response with the user who receives it. -/
def handleAll (env : Env) (px : Pydantic) :
    World → List HttpCall → List (UUID × Except Exc Reply) × World
  | w, [] => ([], w)
  | w, c :: calls =>
    let (response, w') := c.handle env px w
    let (responses, w'') := handleAll env px w' calls
    ((c.user, response) :: responses, w'')

/-- The responses that a user receives. -/
def received (user : UUID) (responses : List (UUID × Except Exc Reply)) : List (Except Exc Reply) :=
  (responses.filter fun r => r.1 == user).map (·.2)

def HttpRequest.projectDraw : HttpRequest → Option UUID
  | postProjects _ uuid4 => some uuid4
  | _ => none

def HttpRequest.taskDraw : HttpRequest → Option UUID
  | postTasks _ uuid4 => some uuid4
  | _ => none

/-- No `uuid4` that the calls draw is the id of a row, or is drawn twice. -/
def FreshHttpDraws (w : World) (calls : List HttpCall) : Prop :=
  FreshIds w (calls.flatMap fun c => c.request.projectDraw.toList)
    (calls.flatMap fun c => c.request.taskDraw.toList)

/-- What the endpoint draws is what came with the request. -/
theorem validate_draws {px : Pydantic} {h : HttpRequest} {r : Request} (hr : h.validate px = some r) :
    r.projectDraw = h.projectDraw ∧ r.taskDraw = h.taskDraw := by
  cases h <;>
    simp only [HttpRequest.validate, Option.bind_eq_bind, Option.bind_eq_some_iff,
      Option.map_eq_some_iff, Option.pure_def, Option.some.injEq] at hr
  case postProjects | postTasks | getTasks =>
    obtain ⟨_, -, _, -, rfl⟩ := hr
    exact ⟨rfl, rfl⟩
  case patchProject | patchTask =>
    obtain ⟨_, -, _, -, _, -, rfl⟩ := hr
    exact ⟨rfl, rfl⟩
  all_goals
    obtain ⟨_, -, rfl⟩ := hr
    exact ⟨rfl, rfl⟩

/-- The rows of one user are valid tables by themselves. -/
theorem World.Valid.view {w : World} (hvalid : w.Valid) (user : UUID) : (w.view user).Valid where
  projectIds := hvalid.projectIds.sublist List.filter_sublist
  taskIds := hvalid.taskIds.sublist List.filter_sublist
  projectRows p hp := hvalid.projectRows p (List.mem_of_mem_filter hp)
  taskRows t ht := by
    obtain ⟨ht, howns⟩ := List.mem_filter.mp ht
    obtain ⟨p, hp, hid, howner⟩ := World.owns_iff.mp howns
    have hrow := hvalid.taskRows t ht
    simp only [Task.storable, List.all_cons, List.all_nil, Bool.and_eq_true] at hrow ⊢
    refine ⟨List.any_eq_true.mpr ⟨p, List.mem_filter.mpr ⟨hp, ?_⟩, ?_⟩, hrow.2⟩
    · exact beq_iff_eq.mpr howner
    · exact beq_iff_eq.mpr hid

theorem FreshIds.view {w : World} {projectIds taskIds : List UUID}
    (h : FreshIds w projectIds taskIds) (user : UUID) :
    FreshIds (w.view user) projectIds taskIds where
  projects := h.projects.sublist ((List.filter_sublist.map _).append (List.Sublist.refl _))
  tasks := h.tasks.sublist ((List.filter_sublist.map _).append (List.Sublist.refl _))

/-! ## One request -/

section Step
variable {env : Env} {px : Pydantic} {w : World} {user : UUID} {h : HttpRequest}
  {projectIds taskIds : List UUID}

theorem handle_valid (hvalid : w.Valid) : (handle env px w user h).2.Valid := by
  unfold handle
  cases h.validate px with
  | none => exact hvalid
  | some r => exact (serve_effect hvalid r).valid hvalid

theorem handle_fresh (hvalid : w.Valid)
    (hfresh : FreshIds w (h.projectDraw.toList ++ projectIds) (h.taskDraw.toList ++ taskIds)) :
    FreshIds (handle env px w user h).2 projectIds taskIds := by
  unfold handle
  cases hr : h.validate px with
  | none => exact hfresh.drop
  | some r =>
    obtain ⟨hproject, htask⟩ := validate_draws hr
    rw [← hproject, ← htask] at hfresh
    exact hfresh.effect (serve_effect hvalid r)

/-- A request writes to the rows of its user. -/
theorem handle_view (hvalid : w.Valid) {other : UUID} (hne : user ≠ other) :
    (handle env px w user h).2.view other = w.view other := by
  unfold handle
  cases h.validate px with
  | none => rfl
  | some r => exact (serve_effect hvalid r).view hvalid hne

/-- What a request answers, and what it makes of the store of its user, depends on that
store and the clock. -/
theorem handle_caller (env : Env) (px : Pydantic) {w₁ w₂ : World} (hvalid₁ : w₁.Valid) (hvalid₂ : w₂.Valid)
    (hfresh₁ : FreshIds w₁ (h.projectDraw.toList ++ projectIds) (h.taskDraw.toList ++ taskIds))
    (hfresh₂ : FreshIds w₂ (h.projectDraw.toList ++ projectIds) (h.taskDraw.toList ++ taskIds))
    (hnow : w₁.now = w₂.now) (hentries : w₁.entries user = w₂.entries user) :
    (handle env px w₁ user h).1 = (handle env px w₂ user h).1 ∧
      (handle env px w₁ user h).2.entries user = (handle env px w₂ user h).2.entries user := by
  unfold handle
  cases hr : h.validate px with
  | none => exact ⟨rfl, hentries⟩
  | some r =>
    obtain ⟨hproject, htask⟩ := validate_draws hr
    rw [← hproject, ← htask] at hfresh₁ hfresh₂
    have h₁ : Refines env w₁ user r := (serve_entries env hvalid₁ hfresh₁).1
    have h₂ : Refines env w₂ user r := (serve_entries env hvalid₂ hfresh₂).1
    unfold Refines at h₁ h₂
    rw [hnow, hentries, h₂] at h₁
    exact ⟨(congrArg Prod.fst h₁).symm, (congrArg Prod.snd h₁).symm⟩

end Step

/-! ## Every run -/

section Run
variable {env : Env} {px : Pydantic} {w : World} {calls : List HttpCall}

theorem handleAll_cons (env : Env) (px : Pydantic) (w : World) (c : HttpCall) (calls : List HttpCall) :
    handleAll env px w (c :: calls) =
      ((c.user, (c.handle env px w).1) :: (handleAll env px (c.handle env px w).2 calls).1,
        (handleAll env px (c.handle env px w).2 calls).2) := rfl

theorem received_cons (user : UUID) (c : HttpCall) :
    received user (handleAll env px w (c :: calls)).1 =
      if c.user = user then
        (c.handle env px w).1 :: received user (handleAll env px (c.handle env px w).2 calls).1
      else received user (handleAll env px (c.handle env px w).2 calls).1 := by
  rw [handleAll_cons]
  unfold received
  by_cases huser : c.user = user
  · rw [if_pos huser, List.filter_cons_of_pos (by simpa using huser), List.map_cons]
  · rw [if_neg huser, List.filter_cons_of_neg (by simpa using huser)]

theorem FreshHttpDraws.step {c : HttpCall} (hvalid : w.Valid) (hfresh : FreshHttpDraws w (c :: calls)) :
    FreshHttpDraws (c.handle env px w).2 calls :=
  handle_fresh (h := c.request) hvalid.at (FreshIds.at hfresh)

/-- The constraints and the freshness of the draws last along a run. -/
theorem handleAll_valid (env : Env) (px : Pydantic) (hvalid : w.Valid) {pre post : List HttpCall}
    (hfresh : FreshHttpDraws w (pre ++ post)) :
    (handleAll env px w pre).2.Valid ∧ FreshHttpDraws (handleAll env px w pre).2 post := by
  induction pre generalizing w with
  | nil => exact ⟨hvalid, hfresh⟩
  | cons c pre ih => exact ih (handle_valid hvalid.at) (hfresh.step hvalid)

/-- Two runs that agree on the store of `A`, one of them without the calls of `B`. -/
theorem received_agree {A B : UUID} (hne : A ≠ B) {w₁ w₂ : World} (hvalid₁ : w₁.Valid)
    (hvalid₂ : w₂.Valid) (hfresh₁ : FreshHttpDraws w₁ calls) (hfresh₂ : FreshHttpDraws w₂ calls)
    (hentries : w₁.entries A = w₂.entries A) :
    received A (handleAll env px w₁ calls).1 =
      received A (handleAll env px w₂ (calls.filter fun c => c.user ≠ B)).1 := by
  induction calls generalizing w₁ w₂ with
  | nil => rfl
  | cons c calls ih =>
    have hvalid₁' : (c.handle env px w₁).2.Valid := handle_valid hvalid₁.at
    have hvalid₂' : (c.handle env px w₂).2.Valid := handle_valid hvalid₂.at
    have hothers : ∀ {w : World}, w.Valid → c.user ≠ A →
        (c.handle env px w).2.entries A = w.entries A := by
      intro w hw huser
      rw [← entries_view, HttpCall.handle, handle_view hw.at huser]
      exact entries_view (w := { w with now := c.now })
    by_cases hB : c.user = B
    · -- the second run leaves the call out; the first answers somebody else
      have hA : c.user ≠ A := fun hA => hne (hA.symm.trans hB)
      rw [List.filter_cons_of_neg (by simpa using hB), received_cons, if_neg hA]
      exact ih hvalid₁' hvalid₂ (hfresh₁.step hvalid₁) hfresh₂.drop
        ((hothers hvalid₁ hA).trans hentries)
    · rw [List.filter_cons_of_pos (by simpa using hB), received_cons, received_cons]
      by_cases hA : c.user = A
      · have hstore₁ : World.entries { w₁ with now := c.now } c.user =
            World.entries { w₂ with now := c.now } c.user := hA ▸ hentries
        obtain ⟨hreply, hentries'⟩ := handle_caller env px hvalid₁.at hvalid₂.at
          (FreshIds.at hfresh₁) (FreshIds.at hfresh₂) rfl hstore₁
        rw [if_pos hA, if_pos hA, ih hvalid₁' hvalid₂' (hfresh₁.step hvalid₁)
          (hfresh₂.step hvalid₂) (hA ▸ hentries')]
        exact congrArg (· :: _) hreply
      · rw [if_neg hA, if_neg hA]
        exact ih hvalid₁' hvalid₂' (hfresh₁.step hvalid₁) (hfresh₂.step hvalid₂)
          ((hothers hvalid₁ hA).trans (hentries.trans (hothers hvalid₂ hA).symm))

/-- Taking the requests of `B` out of a run changes nothing for `A`. On the way, no
request touches a row of another user, and each is answered as if no other user had any. -/
theorem tenant_noninterference (env : Env) (px : Pydantic) (w : World) (hvalid : w.Valid)
    (A B : UUID) (hne : A ≠ B) (calls : List HttpCall) (hfresh : FreshHttpDraws w calls) :
    received A (handleAll env px w calls).1 =
        received A (handleAll env px w (calls.filter fun c => c.user ≠ B)).1 ∧
      ∀ pre c post, calls = pre ++ c :: post →
        let met := (handleAll env px w pre).2
        (∀ other, c.user ≠ other → (c.handle env px met).2.view other = { met with now := c.now }.view other) ∧
        (c.handle env px met).1 = (c.handle env px (met.view c.user)).1 := by
  refine ⟨received_agree hne hvalid hvalid hfresh hfresh rfl, ?_⟩
  rintro pre c post rfl
  obtain ⟨hmet, hfresh'⟩ := handleAll_valid env px hvalid hfresh
  generalize (handleAll env px w pre).2 = met at hmet hfresh' ⊢
  refine ⟨fun other hother => handle_view hmet.at hother, ?_⟩
  have hview := hmet.view c.user
  have hstore : World.entries { met with now := c.now } c.user =
      World.entries { met.view c.user with now := c.now } c.user := entries_view.symm
  exact (handle_caller env px hmet.at hview.at (FreshIds.at hfresh')
    (FreshIds.at (FreshIds.view hfresh' c.user)) rfl hstore).1

end Run

/-! ## Bob reaches for the rows of Ada -/

def plainPydantic : Pydantic where
  uuid := UUID.parse
  date _ := none
  int := String.toInt?

/-- Bob knows the ids of Ada's rows, and sends keys that no schema has. -/
def reachingCalls : List HttpCall := [
  ⟨plainUuid .zero .zero, 10, .postProjects (some (.object [("name", .string "Thesis")])) (plainUuid .one .zero)⟩,
  ⟨plainUuid .zero .zero, 20, .postTasks (some (.object [("project_id", .string (plainUuid .one .zero).str),
    ("title", .string "Write")])) (plainUuid .two .zero)⟩,
  ⟨plainUuid .zero .one, 30, .postProjects (some (.object [("name", .string "Mine"),
    ("owner_id", .string (plainUuid .zero .zero).str), ("id", .string (plainUuid .one .zero).str)])) (plainUuid .one .one)⟩,
  ⟨plainUuid .zero .one, 31, .patchTask (plainUuid .two .zero).str (some (.object [("title", .string "Stolen"),
    ("project_id", .string (plainUuid .one .one).str), ("deleted_at", .null)]))⟩,
  ⟨plainUuid .zero .one, 32, .postTasks (some (.object [("project_id", .string (plainUuid .one .zero).str),
    ("title", .string "Planted")])) (plainUuid .two .one)⟩,
  ⟨plainUuid .zero .one, 33, .deleteProject (plainUuid .one .zero).str⟩,
  ⟨plainUuid .zero .zero, 40, .getTasks [("search", "write"), ("page_size", "5")] idOrder⟩,
  ⟨plainUuid .zero .zero, 41, .getProjects [] idOrder⟩]

theorem tenant_noninterference_reaching :
    received (plainUuid .zero .zero) (handleAll plainEnv plainPydantic noRows reachingCalls).1 =
      received (plainUuid .zero .zero) (handleAll plainEnv plainPydantic noRows
        (reachingCalls.filter fun c => c.user ≠ plainUuid .zero .one)).1 :=
  (tenant_noninterference plainEnv plainPydantic noRows noRows_valid (plainUuid .zero .zero)
    (plainUuid .zero .one) (by decide +kernel) reachingCalls ⟨by decide +kernel, by decide +kernel⟩).1

example : received (plainUuid .zero .one) (handleAll plainEnv plainPydantic noRows reachingCalls).1 =
    [.ok (.project ⟨plainUuid .one .one, plainUuid .zero .one, "Mine", none, 30, 30⟩),
      .error (.taskNotFoundError "Task not found."),
      .error (.projectNotFoundError "Project not found."),
      .error (.projectNotFoundError "Project not found.")] := by
  decide +kernel

end TaskMgtApp.Work
