import TaskMgtApp.Work.Refinement
import TaskMgtApp.Work.Sessions
import Mathlib.Data.Fintype.Basic

/-!
# Tasks under a deleted project

Deleting a project stamps the tasks it sees and then the project; creating a task
looks the project up and inserts later. No lock and no constraint connects the two
transactions. Whatever the order of the statements, no active task is left under a
deleted project as long as no task create stands between its lookup and its commit
while a delete of that project stands between its cascade and its commit. If both
do, the new task outlives its project.
-/
namespace TaskMgtApp.Work

open TaskMgtApp.Common
open TaskMgtApp.Lib.Program TaskMgtApp.Lib.Program.Prog
open TaskMgtApp.Lib.Interleaving
open TaskMgtApp.Lib.Rows

/-! ## What a commit does -/

/-- Every task of a deleted project is deleted. -/
def CascadeComplete (w : World) : Prop :=
  ∀ p ∈ w.projects, p.deletedAt ≠ none → ∀ t ∈ w.tasks, t.projectId = p.id → t.deletedAt ≠ none

/-- The tables after the session has committed what it has written. -/
def Session.after (l : Session) (w : World) : World :=
  { w with projects := l.projects w, tasks := l.tasks w }

section Commits
variable {r r' : Request} {φ φ' : Phase} {l l' : Session} {w : World}

/-- The cases are who has the project: the task create, the delete, or nobody. -/
theorem SessionOk.complete (h : SessionOk r φ l w) (hcomplete : CascadeComplete w) :
    CascadeComplete (l.after w) := by
  intro p hp hdeleted t ht htp
  rcases deleted_before h.writes hp hdeleted with hφ | ⟨q, hq, hqid, hqd⟩
  · exact (h.covered _ hφ).2 t ht htp
  · have hins : φ ≠ .inserted p.id := by
      intro hφ
      exact hqd ((h.live _ (.inr hφ)).2 q hq hqid)
    obtain ⟨s, hs, -, hsp, hsd⟩ := below_writes h.writes hins t ht htp
    intro hnone
    exact hcomplete q hq hqd s hs (hsp.trans hqid.symm) (hsd hnone)

/-- Another session stays as it was, unless the two concern one project. -/
theorem SessionOk.beside (h : SessionOk r φ l w) (h' : SessionOk r' φ' l' w)
    (hdraws : ∀ id, r.projectDraw = some id → r'.projectDraw ≠ some id)
    (hlive : ∀ P, φ' = .seen P ∨ φ' = .inserted P → φ ≠ .cascaded P)
    (hcovered : ∀ P, φ' = .cascaded P → φ ≠ .inserted P) : SessionOk r' φ' l' (l.after w) where
  writes := h'.writes
  dirty := h'.dirty
  keyed := by
    have hkeyed := h.keyed
    have hkeyed' := h'.keyed
    unfold Keyed Session.projects at hkeyed hkeyed' ⊢
    rw [ids_after] at hkeyed hkeyed'
    rw [ids_after]
    change ((l.written.foldl Write.onProjects w.projects).map Project.id ++ _).Nodup
    rw [ids_after, List.append_assoc, List.nodup_append]
    rw [List.nodup_append] at hkeyed hkeyed'
    refine ⟨hkeyed.1, ?_, ?_⟩
    · rw [List.nodup_append]
      refine ⟨hkeyed.2.1, hkeyed'.2.1, ?_⟩
      rintro a ha b hb rfl
      exact hdraws a (insertedIds_drawn h.writes ha) (insertedIds_drawn h'.writes hb)
    · intro a ha b hb
      rcases List.mem_append.mp hb with hb | hb
      · exact hkeyed.2.2 a ha b hb
      · exact hkeyed'.2.2 a ha b hb
  clean := h'.clean
  live P hP := by
    obtain ⟨hparent, hactive⟩ := h'.live P hP
    refine ⟨hparent, fun p hp hid => ?_⟩
    by_contra hdeleted
    rcases deleted_before h.writes hp hdeleted with hφ | ⟨q, hq, hqid, hqd⟩
    · exact hlive P hP (hid ▸ hφ)
    · exact hqd (hactive q hq (hqid.trans hid))
  deletes := h'.deletes
  covered P hP := by
    obtain ⟨hne, hdeleted⟩ := h'.covered P hP
    refine ⟨hne, fun t ht htP hnone => ?_⟩
    have hbelow : Below P (l'.tasks (l.after w)) (l'.tasks w) :=
      (below_writes h.writes (hcovered P hP)).foldl h'.writes
    obtain ⟨s, hs, -, hsP, hsd⟩ := hbelow t ht htP
    exact hdeleted s hs hsP (hsd hnone)
  inserting := h'.inserting

end Commits

/-! ## Every order of the statements -/

section Runs
variable {ι : Type} {env : Env} {requests : ι → UUID × Request} {φ : ι → Phase} {c : Threads ι}

/-- The project whose tasks a delete has stamped without having committed. -/
def cascading (requests : ι → UUID × Request) (c : Threads ι) (i : ι) : Option UUID :=
  if (c.threads i).locals.written = [] then none else (requests i).2.deletes

def Cmd.isInsertTask : Cmd → Bool
  | .insertTask .. => true
  | _ => false

/-- The project that a task create has found without having committed its task. -/
def inserting (requests : ι → UUID × Request) (c : Threads ι) (i : ι) : Option UUID :=
  if (c.threads i).locals.written = [] ∧ (c.next i).any Cmd.isInsertTask = false then none
  else (requests i).2.parent

/-- No task create is between its lookup and its commit while a delete of the same
project is between its cascade and its commit. -/
def Apart (requests : ι → UUID × Request) (c : Threads ι) (_ : Act ι Nat) : Prop :=
  ∀ i k, ∀ P ∈ cascading requests c i, inserting requests c k ≠ some P

instance [Fintype ι] (c : Threads ι) (a : Act ι Nat) : Decidable (Apart requests c a) :=
  inferInstanceAs (Decidable (∀ i k, ∀ P ∈ cascading requests c i, inserting requests c k ≠ some P))

/-- The `uuid4` of new projects tell the requests apart. -/
def DistinctDraws (requests : ι → UUID × Request) : Prop :=
  ∀ i k id, (requests i).2.projectDraw = some id → (requests k).2.projectDraw = some id → i = k

structure Sound (requests : ι → UUID × Request) (φ : ι → Phase) (c : Threads ι) : Prop where
  complete : CascadeComplete c.world
  keyed : Keyed Project.id c.world.projects
  sessions : ∀ i, SessionOk (requests i).2 (φ i) (c.threads i).locals c.world

theorem cascading_of_cascaded {i : ι} {P : UUID}
    (h : SessionOk (requests i).2 (φ i) (c.threads i).locals c.world) (hi : φ i = .cascaded P) :
    cascading requests c i = some P := by
  unfold cascading
  rw [if_neg (h.covered P hi).1]
  exact h.deletes P (.inr hi)

/-- A create that has found its project inserts next. -/
theorem next_of_seen {i : ι} {P : UUID}
    (hobey : Obeys (exec env) (Move (requests i).2) Final (φ i) (c.threads i).prog)
    (hi : φ i = .seen P) : (c.next i).any Cmd.isInsertTask = true := by
  rw [hi] at hobey
  obtain ⟨cmd, φ', hnext, hm⟩ := hobey.exists_next (fun o ho => nomatch ho) (.empty, c.world)
  rw [Config.next, hnext]
  cases hm with
  | quiet hφ => simp at hφ
  | insert | insertRefused => rfl
  | commit hφ | refuse hφ | rollback hφ => cases hφ

theorem inserting_of_seen {i : ι} {P : UUID}
    (hobey : Obeys (exec env) (Move (requests i).2) Final (φ i) (c.threads i).prog)
    (h : SessionOk (requests i).2 (φ i) (c.threads i).locals c.world)
    (hi : φ i = .seen P ∨ φ i = .inserted P) : inserting requests c i = some P := by
  unfold inserting
  rw [if_neg, (h.live P hi).1]
  rintro ⟨hw, hnext⟩
  rcases hi with hi | hi
  · rw [next_of_seen hobey hi] at hnext
    cases hnext
  · exact h.inserting P hi hw

theorem Sound.start {w : World} (hkeyed : Keyed Project.id w.projects) (hw : CascadeComplete w) :
    Sound requests (fun _ => .start) (beside w requests) :=
  ⟨hw, hkeyed, fun _ => .empty hkeyed (.inl rfl)⟩

variable [DecidableEq ι] {i : ι} {cmd : Cmd} {k : Except Exc cmd.Val → WorkM Reply} {φ' : Phase}

theorem Sound.drift (h : Sound requests φ c) (n : Nat) :
    Sound requests φ (c.step (machine env) (.drift n)) where
  complete := h.complete
  keyed := h.keyed
  sessions i :=
    have hi := h.sessions i
    ⟨hi.writes, hi.dirty, hi.keyed, hi.clean, hi.live, hi.deletes, hi.covered, hi.inserting⟩

theorem Sound.move (hdraws : DistinctDraws requests)
    (hobey : AllObey (machine env) (fun i => Move (requests i).2) (fun _ => Final) φ c)
    (h : Sound requests φ c) (hm : Move (requests i).2 (φ i) cmd ((c.threads i).locals, c.world) φ')
    (hapart : Apart requests c (.step i)) :
    Sound requests (Function.update φ i φ') (c.issue (machine env) i cmd k) := by
  by_cases hcmd : cmd = .commit
  · subst hcmd
    generalize hψ : φ i = ψ at hm
    cases hm with
    | quiet hφ hc => cases hc
    | refuse hφ hl =>
      have hexec : exec env .commit ((c.threads i).locals, c.world) =
          (.error .dbError, (c.threads i).locals, c.world) := by
        simp only [exec, hl]
      refine ⟨?_, ?_, forall_issue (P := fun a ψ l => SessionOk (requests a).2 ψ l _) ?_
        fun a _ => ?_⟩
      · rw [world_issue, hexec]
        exact h.complete
      · rw [world_issue, hexec]
        exact h.keyed
      · change SessionOk _ _ (exec env .commit _).2.1 _
        rw [world_issue, hexec, ← hψ]
        exact h.sessions i
      · rw [world_issue, hexec]
        exact h.sessions a
    | @commit _ _ l' _ hφ hl =>
      have hi := h.sessions i
      rw [hψ] at hi
      obtain ⟨hi', -⟩ := hi.flush hφ hl
      have hexec : exec env .commit ((c.threads i).locals, c.world) =
          (.ok (), .empty, l'.after c.world) := by
        simp only [exec, hl]
        rfl
      have hkeyed : Keyed Project.id (l'.after c.world).projects := hi'.keyed
      refine ⟨?_, ?_, forall_issue (P := fun a ψ l => SessionOk (requests a).2 ψ l _) ?_
        fun a ha => ?_⟩
      · rw [world_issue, hexec]
        exact hi'.complete h.complete
      · rw [world_issue, hexec]
        exact hkeyed
      · change SessionOk _ _ (exec env .commit _).2.1 _
        rw [world_issue, hexec]
        exact .empty hkeyed (.inr rfl)
      · rw [world_issue, hexec]
        refine hi'.beside (h.sessions a) ?_ ?_ ?_
        · intro id hid hid'
          exact ha (hdraws a i id hid' hid)
        · rintro P hP rfl
          exact hapart i a P (cascading_of_cascaded (h.sessions i) hψ)
            (inserting_of_seen (hobey a) (h.sessions a) hP)
        · rintro P hP rfl
          exact hapart a i P (cascading_of_cascaded (h.sessions a) hP)
            (inserting_of_seen (hobey i) (h.sessions i) (.inr hψ))
  · have hworld : (exec env cmd ((c.threads i).locals, c.world)).2.2 = c.world := exec_world hcmd
    refine ⟨?_, ?_, forall_issue (P := fun a ψ l => SessionOk (requests a).2 ψ l _) ?_
      fun a _ => ?_⟩
    · rw [world_issue, hworld]
      exact h.complete
    · rw [world_issue, hworld]
      exact h.keyed
    · rw [world_issue, hworld]
      exact (h.sessions i).move h.keyed hm hcmd
    · rw [world_issue, hworld]
      exact h.sessions a

end Runs

/-- For all requests side by side and every order of their statements: in every state
reached, every task of a deleted project is deleted, provided no task create stands
between its lookup and its commit while a delete of that project stands between its
cascade and its commit. -/
theorem cascade_complete {ι : Type} [DecidableEq ι] (env : Env) (w : World)
    (requests : ι → UUID × Request) (hdraws : DistinctDraws requests)
    (hkeyed : Keyed Project.id w.projects) (hw : CascadeComplete w) (schedule : List (Act ι Nat))
    (hmeets : (beside w requests).Along (machine env) (Apart requests) schedule) :
    CascadeComplete ((beside w requests).run (machine env) schedule).world := by
  obtain ⟨φ, -, hsound, -⟩ := run_invariant
    (J := Sound requests)
    (fun φ c n _ hJ _ => hJ.drift n)
    (fun φ c i cmd k φ' hobey hJ _ hm hapart => hJ.move hdraws hobey hm hapart)
    (beside_obeys env w requests) (Sound.start hkeyed hw) hmeets
  exact hsound.complete

/-! ### A task create beside a delete -/

/-- One project of one owner. -/
def oneProject : World where
  now := 100
  projects := [newProject 10 (plainUuid .one .zero) (plainUuid .zero .zero) (some "Book") none]
  tasks := []

def chapterTwo : TaskCreate where
  projectId := plainUuid .one .zero
  title := ⟨"Chapter two", by decide⟩
  description := none
  status := .todo
  priority := .medium
  dueDate := none

def createBesideDelete : Fin 2 → UUID × Request
  | 0 => (plainUuid .zero .zero, .createTask chapterTwo (plainUuid .two .one))
  | 1 => (plainUuid .zero .zero, .deleteProject (plainUuid .one .zero))

theorem oneProject_keyed : Keyed Project.id oneProject.projects := List.nodup_singleton _

theorem createBesideDelete_draws : DistinctDraws createBesideDelete := by
  intro i k id hi _
  match i with
  | 0 => cases hi
  | 1 => cases hi

theorem oneProject_complete : CascadeComplete oneProject := by
  intro p _ _ t ht
  cases ht

/-- The create commits before the delete looks for tasks. -/
theorem cascade_complete_serial :
    CascadeComplete ((beside oneProject createBesideDelete).run (machine plainEnv)
      (List.replicate 4 (.step 0) ++ List.replicate 6 (.step 1))).world :=
  cascade_complete plainEnv oneProject createBesideDelete createBesideDelete_draws
    oneProject_keyed oneProject_complete _ (by decide +kernel)

/-- The create looks the project up, the delete runs to its end, and the create goes
on: both succeed, and at rest the new task is active under the deleted project. -/
theorem cascade_incomplete :
    DistinctDraws createBesideDelete ∧ Keyed Project.id oneProject.projects ∧
    CascadeComplete oneProject ∧
    let c := (beside oneProject createBesideDelete).run (machine plainEnv)
      ([.step 0] ++ List.replicate 6 (.step 1) ++ List.replicate 3 (.step 0))
    c.AtRest ∧ (∀ i, ∃ reply, c.outcome i = some (.ok reply)) ∧ ¬ CascadeComplete c.world := by
  refine ⟨createBesideDelete_draws, oneProject_keyed, oneProject_complete, ?_⟩
  intro c
  refine ⟨by decide +kernel, fun i => ?_, fun hcomplete => ?_⟩
  · match i with
    | 0 => exact ⟨.task ⟨plainUuid .two .one, plainUuid .one .zero, "Chapter two", none, .todo,
        .medium, none, 100, 100⟩, by decide +kernel⟩
    | 1 => exact ⟨.noContent, by decide +kernel⟩
  · have hfound : ∃ p ∈ c.world.projects, p.deletedAt ≠ none ∧
        ∃ t ∈ c.world.tasks, t.projectId = p.id ∧ t.deletedAt = none := by decide +kernel
    obtain ⟨p, hp, hd, t, ht, htp, hactive⟩ := hfound
    exact hcomplete p hp hd t ht htp hactive

end TaskMgtApp.Work
