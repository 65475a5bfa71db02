import TaskMgtApp.Work.ListRequests

/-!
# What a list answer describes

A list request counts the matching rows and then selects its page of them. Each of the
two statements sees what is committed at its own moment, and nothing fixes one state for
both. The answer is that of one state as long as the count or the page is the same at
both moments; a row that comes in between is on the page and not in the total.
-/
namespace TaskMgtApp.Work

open TaskMgtApp.Common
open TaskMgtApp.Lib.Program TaskMgtApp.Lib.Program.Prog
open TaskMgtApp.Lib.Interleaving TaskMgtApp.Lib.Listing TaskMgtApp.Lib.Rows

/-! ## What a list request answers -/

/-- The total does not show in the items. -/
theorem listed_congr {env : Env} {w w' : World} {u : UUID} {r : Request} {n : Nat}
    (h : r.listed env w u n = r.listed env w' u n) (n' : Nat) :
    r.listed env w u n' = r.listed env w' u n' := by
  cases r with
  | listProjects pp ties =>
    have hinj : Function.Injective fun items => Reply.projects items n pp.page pp.pageSize :=
      fun a b h => (Reply.projects.inj h).1
    exact congrArg (Option.map _) (Option.map_injective hinj h)
  | listTasks pp filters ties =>
    have hinj : Function.Injective fun items => Reply.tasks items n pp.page pp.pageSize :=
      fun a b h => (Reply.tasks.inj h).1
    exact congrArg (Option.map _) (Option.map_injective hinj h)
  | _ => rfl

/-- The rows of the answer are among as many as its total says. -/
def Reply.InRange : Reply → Prop
  | .projects items total page pageSize =>
      items ≠ [] → (page - 1) * pageSize + items.length ≤ total
  | .tasks items total page pageSize => items ≠ [] → (page - 1) * pageSize + items.length ≤ total
  | _ => True

/-- A page that is not empty ends within the rows. -/
theorem page_within {α β : Type} {rows : List α} {read : α → Option β} {offset limit : Nat}
    {items : List β} (h : (page offset limit rows).mapM read = some items) (hne : items ≠ []) :
    offset + items.length ≤ rows.length := by
  have hlength : items.length = (page offset limit rows).length := length_of_mapM h
  have hpos : 0 < items.length := List.length_pos_iff.mpr hne
  simp only [page, List.length_take, List.length_drop] at hlength
  omega

theorem listed_inRange {env : Env} {w : World} {u : UUID} {r : Request} {reply : Reply}
    (h : r.listed env w u (r.matching env w u) = some reply) : reply.InRange := by
  cases r with
  | listProjects pp ties =>
    obtain ⟨items, hitems, rfl⟩ := Option.map_eq_some_iff.mp h
    intro hne
    have hwithin := page_within hitems hne
    rwa [newest, length_latestFirst] at hwithin
  | listTasks pp filters ties =>
    obtain ⟨items, hitems, rfl⟩ := Option.map_eq_some_iff.mp h
    intro hne
    have hwithin := page_within hitems hne
    rwa [newest, length_latestFirst] at hwithin
  | _ => cases h

/-- So it is for every state. -/
theorem serve_inRange {env : Env} {w : World} {u : UUID} {r : Request} (hr : r.isList = true)
    {reply : Reply} (h : (serve env w u r).1 = .ok reply) : reply.InRange := by
  rw [serve_list env w u hr] at h
  split at h
  · cases hlisted : r.listed env w u (r.matching env w u) with
    | none =>
      rw [hlisted] at h
      cases h
    | some found =>
      rw [hlisted] at h
      obtain rfl := Except.ok.inj h
      exact listed_inRange hlisted
  · cases h

/-! ## The moves of a list request -/

inductive ListPhase where
  | start
  | counted (total : Nat)
  /-- The rows of the page have been selected; this is what the serialization makes of them. -/
  | answered (reply : Option Reply)
  | over

inductive ListMove (env : Env) (u : UUID) (r : Request) : ListPhase → Cmd → State → ListPhase → Prop
  | other {φ : ListPhase} {c : Cmd} {s : State} (hr : r.isList = false) : ListMove env u r φ c s φ
  | count {c : Cmd} {l : Session} {w : World} (hc : r.countCmd u = some c) :
      ListMove env u r .start c (l, w) (.counted (r.matching env (l.after w) u))
  | select {c : Cmd} {l : Session} {w : World} {n : Nat} (hc : r.pageCmd u = some c)
      (hsend : r.sendable = true) :
      ListMove env u r (.counted n) c (l, w) (.answered (r.listed env (l.after w) u n))
  | refused {φ : ListPhase} {c : Cmd} {s : State} (hc : r.countCmd u = some c ∨ r.pageCmd u = some c) :
      ListMove env u r φ c s .over
  | commit {reply : Option Reply} {s : State} :
      ListMove env u r (.answered reply) .commit s (.answered reply)
  | rollback {φ : ListPhase} {s : State} : ListMove env u r φ .rollback s .over

/-- A list request ends well with its answer only. -/
def ListFinal (r : Request) (φ : ListPhase) (o : Except Exc Reply) : Prop :=
  r.isList = true → ∀ reply, o = .ok reply → φ = .answered (some reply)

/-- What a snapshot depends on of how far a list request has come. -/
def PagePhase.coarse : PagePhase → ListPhase
  | start => .start
  | counted total => .counted total
  | selected reply => .answered reply
  | committed reply | unsaved reply => .answered (some reply)
  | refused | failed => .over

section Obeys
variable {env : Env} {u : UUID}

theorem PageMove.coarse {r : Request} {φ φ' : PagePhase} {c : Cmd} {s : State}
    (h : PageMove env u r φ c s φ') : ListMove env u r φ.coarse c s φ'.coarse := by
  cases h with
  | other hr => exact .other hr
  | count hc => exact .count hc
  | countRefused hc => exact .refused (.inl hc)
  | select hc hsend => exact .select hc hsend
  | selectRefused hc => exact .refused (.inr hc)
  | commit => exact .commit
  | commitRefused => exact .commit
  | rollback => exact .rollback

theorem PageFinal.coarse {r : Request} {φ : PagePhase} {o : Except Exc Reply}
    (h : PageFinal r φ o) : ListFinal r φ.coarse o := by
  intro hr reply ho
  obtain ⟨reply', rfl, rfl⟩ | ⟨e, rfl, -⟩ := h hr
  · obtain rfl := Except.ok.inj ho
    rfl
  · cases ho

theorem list_obeys (r : Request) :
    Obeys (exec env) (ListMove env u r) (ListFinal r) .start (r.program u) :=
  (page_obeys r).map (f := PagePhase.coarse) (fun _ _ _ _ h => h.coarse) (fun _ _ h => h.coarse)

theorem lists_obey {ι : Type} (env : Env) (w : World) (requests : ι → UUID × Request) :
    AllObey (machine env) (fun i => ListMove env (requests i).1 (requests i).2)
      (fun i => ListFinal (requests i).2) (fun _ => .start) (beside w requests) :=
  fun i => list_obeys (requests i).2

end Obeys

/-! ## Every order of the statements -/

/-- The list has the same total in both states, or the same page. -/
def Alike (env : Env) (u : UUID) (r : Request) (w w' : World) : Prop :=
  r.matching env w u = r.matching env w' u ∨ r.listed env w u 0 = r.listed env w' u 0

instance (env : Env) (u : UUID) (r : Request) (w w' : World) : Decidable (Alike env u r w w') :=
  inferInstanceAs (Decidable (_ ∨ _))

def Cmd.isPage : Cmd → Bool
  | .selectProjects .. | .selectTasks .. => true
  | _ => false

section Runs
variable {ι : Type} [DecidableEq ι] {env : Env} {requests : ι → UUID × Request}
  {φ : ι → ListPhase} {c : Threads ι}

/-- When a list request selects its page, the database has the total that the request has
counted, or the page that it had then. -/
def Steady (env : Env) (requests : ι → UUID × Request) (c : Threads ι) : Act ι Nat → Prop
  | .drift _ => True
  | .step i => (c.next i).any Cmd.isPage = true →
      ∀ e ∈ c.log, e.thread = i → Alike env (requests i).1 (requests i).2 e.before c.world

instance (c : Threads ι) : (a : Act ι Nat) → Decidable (Steady env requests c a)
  | .drift _ => instDecidableTrue
  | .step i => inferInstanceAs (Decidable ((c.next i).any Cmd.isPage = true →
      ∀ e ∈ c.log, e.thread = i → Alike env (requests i).1 (requests i).2 e.before c.world))

/-- What holds of a list request that has met the states `met`. -/
structure ListOk (env : Env) (u : UUID) (r : Request) (met : World → Prop) (φ : ListPhase)
    (l : Session) : Prop where
  clean : l.written = []
  counted : ∀ n, φ = .counted n → ∃ w, met w ∧ r.matching env w u = n
  answered : ∀ reply, φ = .answered (some reply) →
    r.sendable = true ∧ ∃ w, met w ∧ r.listed env w u (r.matching env w u) = some reply

def Snapshots (env : Env) (requests : ι → UUID × Request) (φ : ι → ListPhase) (c : Threads ι) : Prop :=
  ∀ i, (requests i).2.isList = true →
    ListOk env (requests i).1 (requests i).2 (c.Met i) (φ i) (c.threads i).locals

theorem isPage_of_pageCmd {u : UUID} {r : Request} {cmd : Cmd} (h : r.pageCmd u = some cmd) :
    cmd.isPage = true := by
  cases r with
  | listProjects pp ties | listTasks pp filters ties =>
    obtain rfl := Option.some.inj h
    rfl
  | _ => cases h

variable {i : ι} {cmd : Cmd} {k : Except Exc cmd.Val → WorkM Reply} {φ' : ListPhase}

theorem ListOk.move {u : UUID} {r : Request} (hr : r.isList = true)
    (h : ListOk env u r (c.Met i) (φ i) (c.threads i).locals)
    (hp : (c.threads i).prog = .call cmd k)
    (hm : ListMove env u r (φ i) cmd ((c.threads i).locals, c.world) φ')
    (hsteady : (c.next i).any Cmd.isPage = true → ∀ e ∈ c.log, e.thread = i →
      Alike env u r e.before c.world) :
    ListOk env u r ((c.issue (machine env) i cmd k).Met i) φ'
      (exec env cmd ((c.threads i).locals, c.world)).2.1 := by
  generalize hψ : φ i = ψ at hm
  cases hm with
  | other hother =>
    rw [hr] at hother
    cases hother
  | count hc =>
    refine ⟨(kept_list (.inl hc)).1.trans h.clean, ?_, by simp⟩
    rintro n ⟨⟩
    exact ⟨_, Config.met_issue, by rw [after_clean h.clean]⟩
  | @select _ _ _ n hc hsend =>
    refine ⟨(kept_list (.inr hc)).1.trans h.clean, by simp, ?_⟩
    intro reply hreply
    rw [ListPhase.answered.injEq, after_clean h.clean] at hreply
    refine ⟨hsend, ?_⟩
    obtain ⟨w, ⟨e, he, hei, rfl⟩, hn⟩ := h.counted n hψ
    have hnext : (c.next i).any Cmd.isPage = true := by
      simp only [Config.next, hp, next_call, Option.any_some]
      exact isPage_of_pageCmd hc
    rcases hsteady hnext e he hei with htotal | hpage
    · -- the answer is that of the state in which the page was selected
      refine ⟨c.world, Config.met_issue, ?_⟩
      rw [← htotal, hn, hreply]
    · -- the answer is that of the state in which the rows were counted
      refine ⟨e.before, Config.Met.issue ⟨e, he, hei, rfl⟩, ?_⟩
      rw [hn, listed_congr hpage n, hreply]
  | refused hc => exact ⟨(kept_list hc).1.trans h.clean, by simp, by simp⟩
  | commit =>
    refine ⟨?_, by simp, fun reply hreply => ?_⟩
    · simp only [exec]
      split
      · rfl
      · exact h.clean
    · obtain ⟨hsend, w, hw, hlisted⟩ := h.answered reply (hψ.trans hreply)
      exact ⟨hsend, w, hw.issue, hlisted⟩
  | rollback => exact ⟨rfl, by simp, by simp⟩

theorem Snapshots.move (h : Snapshots env requests φ c) (hp : (c.threads i).prog = .call cmd k)
    (hm : ListMove env (requests i).1 (requests i).2 (φ i) cmd ((c.threads i).locals, c.world) φ')
    (hsteady : Steady env requests c (.step i)) :
    Snapshots env requests (Function.update φ i φ') (c.issue (machine env) i cmd k) := by
  refine forall_issue (P := fun a ψ l => (requests a).2.isList = true →
    ListOk env (requests a).1 (requests a).2 ((c.issue (machine env) i cmd k).Met a) ψ l) ?_ ?_
  · exact fun hlist => (h i hlist).move hlist hp hm hsteady
  · intro a _ hlist
    have ha := h a hlist
    refine ⟨ha.clean, fun n hn => ?_, fun reply hreply => ?_⟩
    · obtain ⟨w, hw, hn⟩ := ha.counted n hn
      exact ⟨w, hw.issue, hn⟩
    · obtain ⟨hsend, w, hw, hlisted⟩ := ha.answered reply hreply
      exact ⟨hsend, w, hw.issue, hlisted⟩

theorem snapshots_run (env : Env) (w : World) (requests : ι → UUID × Request)
    {schedule : List (Act ι Nat)}
    (hsteady : (beside w requests).Along (machine env) (Steady env requests) schedule) :
    ∃ φ, AllObey (machine env) (fun i => ListMove env (requests i).1 (requests i).2)
        (fun i => ListFinal (requests i).2) φ ((beside w requests).run (machine env) schedule) ∧
      Snapshots env requests φ ((beside w requests).run (machine env) schedule) := by
  obtain ⟨φ, hobey, hJ, -⟩ := run_invariant (J := Snapshots env requests)
    (fun φ c n _ hJ _ => hJ)
    (fun φ c i cmd k φ' _ hJ hp hm hmeets => hJ.move hp hm hmeets)
    (lists_obey env w requests) (fun i _ => ⟨rfl, by simp, by simp⟩) hsteady
  exact ⟨φ, hobey, hJ⟩

omit [DecidableEq ι] in
/-- The answer is that of a state that the request has met. -/
theorem Snapshots.answer (h : Snapshots env requests φ c)
    (hobey : AllObey (machine env) (fun i => ListMove env (requests i).1 (requests i).2)
      (fun i => ListFinal (requests i).2) φ c)
    (hlist : (requests i).2.isList = true) {reply : Reply} (houtcome : c.outcome i = some (.ok reply)) :
    (∃ w', c.Met i w' ∧ (serve env w' (requests i).1 (requests i).2).1 = .ok reply) ∧
      reply.InRange := by
  have hfinal := hobey.final houtcome hlist reply rfl
  obtain ⟨hsend, w', hmet, hlisted⟩ := (h i hlist).answered reply hfinal
  refine ⟨⟨w', hmet, ?_⟩, listed_inRange hlisted⟩
  rw [serve_list env w' _ hlist, if_pos hsend, hlisted]
  rfl

end Runs

/-- For all requests side by side and every order of their statements: the answer of a
list request is that of one state of the database, which the request has met at one of its
statements, and its rows are among as many as its total says, provided that whenever a
page is selected the total or the page is still what it was when the rows were counted. -/
theorem list_one_state {ι : Type} [DecidableEq ι] (env : Env) (w : World)
    (requests : ι → UUID × Request) (schedule : List (Act ι Nat))
    (hsteady : (beside w requests).Along (machine env) (Steady env requests) schedule) :
    let c := (beside w requests).run (machine env) schedule
    ∀ i reply, (requests i).2.isList = true → c.outcome i = some (.ok reply) →
      (∃ w', c.Met i w' ∧ (serve env w' (requests i).1 (requests i).2).1 = .ok reply) ∧
        reply.InRange := by
  intro c i reply hlist houtcome
  obtain ⟨φ, hobey, hJ⟩ := snapshots_run env w requests hsteady
  exact hJ.answer hobey hlist houtcome

/-! ### A create between the two statements -/

def listBesideCreate : Fin 2 → UUID × Request
  | 0 => (plainUuid .zero .zero, .listTasks firstPage ⟨none, none, none, none⟩ idOrder)
  | 1 => (plainUuid .zero .zero, .createTask chapterTwo (plainUuid .two .one))

/-- A list of the task of `chapterTwo`, with this total. -/
def theTaskListed (total : Nat) : Reply :=
  .tasks [⟨plainUuid .two .one, plainUuid .one .zero, "Chapter two", none, .todo, .medium, none, 100,
    100⟩] total 1 20

/-- The create commits before the list has counted. -/
theorem list_one_state_serial :
    let c := (beside oneProject listBesideCreate).run (machine plainEnv)
      (List.replicate 4 (.step 1) ++ List.replicate 3 (.step 0))
    ∃ w', c.Met 0 w' ∧ (serve plainEnv w' (plainUuid .zero .zero)
      (.listTasks firstPage ⟨none, none, none, none⟩ idOrder)).1 = .ok (theTaskListed 1) := by
  intro c
  exact (list_one_state plainEnv oneProject listBesideCreate
    (List.replicate 4 (.step 1) ++ List.replicate 3 (.step 0)) (by decide +kernel) 0
    (theTaskListed 1) rfl (by decide +kernel)).1

/-- The create commits between the two statements: one task out of none, which is the
answer of no state at all. -/
theorem list_two_states :
    let c := (beside oneProject listBesideCreate).run (machine plainEnv)
      ([.step 0] ++ List.replicate 4 (.step 1) ++ List.replicate 2 (.step 0))
    ∃ reply, c.outcome 0 = some (.ok reply) ∧ ¬ reply.InRange ∧
      ∀ w', (serve plainEnv w' (plainUuid .zero .zero)
        (.listTasks firstPage ⟨none, none, none, none⟩ idOrder)).1 ≠ .ok reply := by
  intro c
  have hout : ¬ (theTaskListed 0).InRange := by simp [Reply.InRange, theTaskListed]
  exact ⟨theTaskListed 0, by decide +kernel, hout, fun w' h => hout (serve_inRange rfl h)⟩

/-! ## Commits between the two statements -/

section Commits
variable {ι : Type} [DecidableEq ι] {env : Env} {requests : ι → UUID × Request}
  {φ : ι → PagePhase} {c : Threads ι} {i : ι} {cmd : Cmd} {k : Except Exc cmd.Val → WorkM Reply}
  {φ' : PagePhase}

/-- No commit changes how many rows match a list that is about to select its page. -/
def Undisturbed (env : Env) (requests : ι → UUID × Request) (c : Threads ι) : Act ι Nat → Prop
  | .drift _ => True
  | .step i => c.next i = some .commit → ∀ j, (c.next j).any Cmd.isPage = true →
      (requests j).2.matching env c.world (requests j).1 =
        (requests j).2.matching env (c.step (machine env) (.step i)).world (requests j).1

/-- As many rows match a list as it has counted. -/
def StillCounted (env : Env) (requests : ι → UUID × Request) (φ : ι → PagePhase) (c : Threads ι) :
    Prop :=
  ∀ j, (requests j).2.isList = true → (φ j = .start → ∀ e ∈ c.log, e.thread ≠ j) ∧
    ∀ n, φ j = .counted n → ∀ e ∈ c.log, e.thread = j →
      (requests j).2.matching env e.before (requests j).1 =
        (requests j).2.matching env c.world (requests j).1

abbrev AllPage (env : Env) (requests : ι → UUID × Request) (φ : ι → PagePhase) (c : Threads ι) : Prop :=
  AllObey (machine env) (fun i => PageMove env (requests i).1 (requests i).2)
    (fun i => PageFinal (requests i).2) φ c

theorem matching_drift (w : World) (u : UUID) (r : Request) (n : Nat) :
    r.matching env { w with now := n } u = r.matching env w u := by
  cases r <;> rfl

theorem not_isPage_of_countCmd {u : UUID} {r : Request} {cmd : Cmd} (h : r.countCmd u = some cmd) :
    cmd.isPage = false := by
  cases r with
  | listProjects pp ties | listTasks pp filters ties =>
    obtain rfl := Option.some.inj h
    rfl
  | _ => cases h

/-- A list selects its page only when it has counted. -/
theorem PageMove.counted_of_isPage {u : UUID} {r : Request} {ψ ψ' : PagePhase} {s : State}
    (hm : PageMove env u r ψ cmd s ψ') (hlist : r.isList = true) (hpage : cmd.isPage = true) :
    ∃ n, ψ = .counted n := by
  cases hm with
  | other hr =>
    rw [hlist] at hr
    cases hr
  | count hc | countRefused hc =>
    rw [not_isPage_of_countCmd hc] at hpage
    cases hpage
  | select | selectRefused => exact ⟨_, rfl⟩
  | commit | commitRefused | rollback => cases hpage

/-- And then it does. -/
theorem AllPage.next_isPage (hobey : AllPage env requests φ c) {j : ι}
    (hlist : (requests j).2.isList = true) {n : Nat} (hj : φ j = .counted n) :
    (c.next j).any Cmd.isPage = true := by
  cases hp : (c.threads j).prog with
  | done o =>
    have hfinal := hobey j
    rw [hp, hj] at hfinal
    rcases hfinal hlist with ⟨reply, -, hφ⟩ | ⟨e, -, hφ⟩ <;> cases hφ
  | call cmd k =>
    obtain ⟨φ', hm, -⟩ := hobey.issue hp
    rw [hj] at hm
    simp only [Config.next, hp, next_call, Option.any_some]
    cases hm with
    | other hr =>
      rw [hlist] at hr
      cases hr
    | select hc | selectRefused hc => exact isPage_of_pageCmd hc
    | rollback hraised => exact absurd hraised id

/-- A list that has just counted has the rows before it. -/
theorem PageMove.world_of_counted {u : UUID} {r : Request} {ψ : PagePhase} {s : State} {n : Nat}
    (hm : PageMove env u r ψ cmd s (.counted n)) (hlist : r.isList = true) :
    ψ = .start ∧ (exec env cmd s).2.2 = s.2 := by
  cases hm with
  | other hr =>
    rw [hlist] at hr
    cases hr
  | @count cmd l w hc =>
    refine ⟨rfl, exec_world ?_⟩
    rintro rfl
    cases r <;> cases hc

theorem StillCounted.move (hobey : AllPage env requests φ c) (h : StillCounted env requests φ c)
    (hp : (c.threads i).prog = .call cmd k)
    (hm : PageMove env (requests i).1 (requests i).2 (φ i) cmd ((c.threads i).locals, c.world) φ')
    (hmeets : Undisturbed env requests c (.step i)) :
    StillCounted env requests (Function.update φ i φ') (c.issue (machine env) i cmd k) := by
  intro j hlist
  by_cases hj : j = i
  · subst hj
    rw [Function.update_self]
    constructor
    · rintro rfl
      generalize φ j = ψ at hm
      cases hm with
      | other hr =>
        rw [hlist] at hr
        cases hr
    · rintro n rfl e he hej
      obtain ⟨hstart, hworld⟩ := hm.world_of_counted hlist
      rcases List.mem_cons.mp he with rfl | hold
      · exact congrArg (fun v => (requests j).2.matching env v (requests j).1) hworld.symm
      · exact absurd hej ((h j hlist).1 hstart e hold)
  · rw [Function.update_of_ne hj]
    constructor
    · intro hstart e he
      rcases List.mem_cons.mp he with rfl | hold
      · exact Ne.symm hj
      · exact (h j hlist).1 hstart e hold
    · intro n hn e he hej
      rcases List.mem_cons.mp he with rfl | hold
      · exact absurd hej.symm hj
      · refine ((h j hlist).2 n hn e hold hej).trans ?_
        by_cases hc : cmd = .commit
        · subst hc
          have hnext : c.next i = some .commit := by rw [Config.next, hp, next_call]
          have hsame := hmeets hnext j (hobey.next_isPage hlist hn)
          rwa [Config.step_of_call hp] at hsame
        · exact congrArg (fun v => (requests j).2.matching env v (requests j).1) (exec_world hc).symm

theorem StillCounted.steady (hobey : AllPage env requests φ c) (h : StillCounted env requests φ c)
    (a : Act ι Nat) : Steady env requests c a := by
  cases a with
  | drift n => trivial
  | step i =>
    intro hpage e he hei
    left
    by_cases hlist : (requests i).2.isList = true
    · cases hp : (c.threads i).prog with
      | done o => simp [Config.next, hp, next] at hpage
      | call cmd k =>
        simp only [Config.next, hp, next_call, Option.any_some] at hpage
        obtain ⟨φ', hm, -⟩ := hobey.issue hp
        obtain ⟨n, hn⟩ := hm.counted_of_isPage hlist hpage
        exact (h i hlist).2 n hn e he hei
    · generalize (requests i).2 = r at hlist
      cases r with
      | listProjects | listTasks => exact absurd rfl hlist
      | _ => rfl

/-- For all requests side by side and every order of their statements: if no commit between the
two statements of a list changes how many rows match it, its answer is that of one state. -/
theorem list_undisturbed (env : Env) (w : World) (requests : ι → UUID × Request)
    (schedule : List (Act ι Nat))
    (hundisturbed : (beside w requests).Along (machine env) (Undisturbed env requests) schedule) :
    let c := (beside w requests).run (machine env) schedule
    ∀ i reply, (requests i).2.isList = true → c.outcome i = some (.ok reply) →
      (∃ w', c.Met i w' ∧ (serve env w' (requests i).1 (requests i).2).1 = .ok reply) ∧
        reply.InRange := by
  intro c i reply hlist houtcome
  have hpages : AllPage env requests (fun _ => .start) (beside w requests) :=
    fun i => page_obeys (requests i).2
  have hsteady : (beside w requests).Along (machine env) (Steady env requests) schedule := by
    refine along_of_invariant (J := StillCounted env requests) ?_
      (fun φ c i cmd k φ' hobey hJ hp hm hmeets => hJ.move hobey hp hm hmeets)
      (fun φ c a hobey hJ _ => hJ.steady hobey a) hpages
      (fun j _ => ⟨fun _ e he => ?_, fun n hn => ?_⟩) hundisturbed
    · intro φ c n _ hJ _ j hlist
      refine ⟨(hJ j hlist).1, fun m hm e he hej => ((hJ j hlist).2 m hm e he hej).trans ?_⟩
      exact (matching_drift c.world _ _ _).symm
    · cases he
    · cases hn
  obtain ⟨φ, hobey, hJ⟩ := snapshots_run env w requests hsteady
  exact hJ.answer hobey hlist houtcome

end Commits

end TaskMgtApp.Work
