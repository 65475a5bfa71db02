import TaskMgtApp.Work.ListRequests
import TaskMgtApp.Work.NotNull
import TaskMgtApp.Work.Pages
import TaskMgtApp.Work.Patches

/-!
# Pages far out

`PageParams` bounds `page_size` above and `page` only below. The product is formed in
Python's integers, and two layers below the driver sends it as the `bigint` of an OFFSET.
A page is returned as long as it fits, and no page after that.
-/
namespace TaskMgtApp.Work

open TaskMgtApp.Common
open TaskMgtApp.Lib.Program TaskMgtApp.Lib.Interleaving TaskMgtApp.Lib.Listing TaskMgtApp.Lib.Rows

/-! ## The numbers of a page -/

/-- The integers that a `bigint` can hold. -/
def Bigint (n : Int) : Prop := -2 ^ 63 ≤ n ∧ n < 2 ^ 63

/-- The OFFSET and the LIMIT of a statement. -/
def Cmd.paging : Cmd → Option (Int × Int)
  | .selectProjects _ _ offset limit => some (offset, limit)
  | .selectTasks _ _ _ offset limit => some (offset, limit)
  | _ => none

/-- The numbers that a request sends for a page are in range, and it returns the page. -/
structure PageServed {ι R : Type} (reply : List R → Nat → Nat → Nat → Reply) (pp : PageParams)
    (c : Threads ι) (i : ι) : Prop where
  sent : ∀ e ∈ c.log, e.thread = i → ∀ offset limit, e.command.paging = some (offset, limit) →
    offset = (pp.page - 1) * pp.pageSize ∧ 0 ≤ offset ∧ Bigint offset ∧
      limit = pp.pageSize ∧ 0 ≤ limit ∧ Bigint limit
  returned : ∃ items total, items.length ≤ pp.pageSize ∧
    c.outcome i = some (.ok (reply items total pp.page pp.pageSize))

section Numbers
variable {pp : PageParams}

theorem bigintOk_iff {n : Nat} : bigintOk n = true ↔ Bigint n := by
  simp only [bigintOk, Bigint, decide_eq_true_eq]
  omega

theorem offset_int : (pp.offset : Int) = (pp.page - 1) * pp.pageSize := by
  rw [PageParams.offset, Nat.cast_mul, Nat.cast_sub pp.page_pos, Nat.cast_one]

theorem bigintOk_offset : bigintOk pp.offset = true ↔ (pp.page - 1) * pp.pageSize < 2 ^ 63 := by
  rw [bigintOk, PageParams.offset, decide_eq_true_eq]
  rfl

/-- The numbers of a statement that the driver takes. -/
theorem paging_inRange (hoffset : bigintOk pp.offset = true) {offset limit : Int}
    (h : some ((pp.offset : Int), (pp.limit : Int)) = some (offset, limit)) :
    offset = (pp.page - 1) * pp.pageSize ∧ 0 ≤ offset ∧ Bigint offset ∧
      limit = pp.pageSize ∧ 0 ≤ limit ∧ Bigint limit := by
  obtain ⟨rfl, rfl⟩ := Prod.mk.inj (Option.some.inj h)
  exact ⟨offset_int, Int.natCast_nonneg _, bigintOk_iff.mp hoffset, rfl, Int.natCast_nonneg _,
    bigintOk_iff.mp (bigintOk_limit pp)⟩

end Numbers

/-! ## What a list request answers -/

/-- The reply is a page of the list that the request asks for. -/
def Request.IsPage : Request → Reply → Prop
  | .listProjects pp _, reply => ∃ items total, items.length ≤ pp.pageSize ∧
      reply = .projects items total pp.page pp.pageSize
  | .listTasks pp _ _, reply => ∃ items total, items.length ≤ pp.pageSize ∧
      reply = .tasks items total pp.page pp.pageSize
  | _, _ => False

section Answers
variable (env : Env) {w : World} (u : UUID)

theorem length_items {M R : Type} {rows : List M} {read : M → Option R} {offset limit : Nat}
    {items : List R} (h : (page offset limit rows).mapM read = some items) :
    items.length ≤ limit := by
  rw [length_of_mapM h, page, List.length_take]
  exact Nat.min_le_left ..

/-- Rows with their NOT NULL columns make a page. -/
theorem listed_filled (hw : w.Filled) {r : Request} (hr : r.isList = true) (total : Nat) :
    ∃ reply, r.listed env w u total = some reply ∧ r.IsPage reply := by
  cases r with
  | listProjects pp ties =>
    have hitems := page_projects u hw ties pp.offset pp.limit
    exact ⟨_, congrArg (Option.map _) hitems, _, total, length_items hitems, rfl⟩
  | listTasks pp filters ties =>
    have hitems := page_tasks env u hw filters ties pp.offset pp.limit
    exact ⟨_, congrArg (Option.map _) hitems, _, total, length_items hitems, rfl⟩
  | _ => cases hr

end Answers

/-! ## Every order of the statements -/

/-- What the request may be about to return: a page if the driver can send its statements,
and else an exception. -/
def PagePhase.Fits (r : Request) : PagePhase → Prop
  | start | counted _ => True
  | selected (some reply) | committed reply => r.sendable = true ∧ r.IsPage reply
  | selected none | unsaved _ => False
  | refused | failed => ¬ r.sendable = true

/-- How many commands a list request can still issue. -/
def PagePhase.budget : PagePhase → Nat
  | start => 4
  | counted _ => 3
  | selected _ => 2
  | refused | unsaved _ => 1
  | committed _ | failed => 0

section Moves
variable {env : Env} {u : UUID} {r : Request} {φ φ' : PagePhase} {c : Cmd} {s : State}
  {l : Session} {w : World}

theorem PageMove.budget (hr : r.isList = true) (h : PageMove env u r φ c s φ') :
    φ'.budget < φ.budget := by
  cases h with
  | other hother => exact nomatch hr.symm.trans hother
  | rollback hφ =>
    cases φ with
    | refused => exact Nat.zero_lt_one
    | unsaved reply => exact Nat.zero_lt_one
    | selected reply => exact Nat.zero_lt_two
    | _ => cases hφ
  | _ => simp [PagePhase.budget]

/-- A list request writes nothing. -/
theorem PageMove.clean (hr : r.isList = true) (h : PageMove env u r φ c (l, w) φ')
    (hl : l.written = [] ∧ l.dirty = []) :
    (exec env c (l, w)).2.1.written = [] ∧ (exec env c (l, w)).2.1.dirty = [] := by
  have hkept (hc : r.countCmd u = some c ∨ r.pageCmd u = some c) :
      (exec env c (l, w)).2.1.written = [] ∧ (exec env c (l, w)).2.1.dirty = [] :=
    ⟨(kept_list hc).1.trans hl.1, (kept_list hc).2.trans hl.2⟩
  cases h with
  | other hother => exact nomatch hr.symm.trans hother
  | count hc | countRefused hc => exact hkept (.inl hc)
  | select hc | selectRefused hc => exact hkept (.inr hc)
  | commit hflush =>
    simp only [exec, hflush]
    exact ⟨rfl, rfl⟩
  | commitRefused hflush =>
    rw [flush_clean l w hl.2] at hflush
    cases hflush
  | rollback => exact ⟨rfl, rfl⟩

theorem PageMove.fits (hr : r.isList = true) (h : PageMove env u r φ c (l, w) φ') (hw : w.Filled)
    (hl : l.written = [] ∧ l.dirty = []) (hφ : φ.Fits r) : φ'.Fits r := by
  cases h with
  | other hother => exact nomatch hr.symm.trans hother
  | count => trivial
  | countRefused hc hsend => exact hsend
  | @select _ _ _ total hc hsend =>
    obtain ⟨reply, hlisted, hpage⟩ := listed_filled env u hw hr total
    rw [after_clean hl.1, hlisted]
    exact ⟨hsend, hpage⟩
  | selectRefused hc hsend => exact hsend
  | commit => exact hφ
  | commitRefused hflush =>
    rw [flush_clean l w hl.2] at hflush
    cases hflush
  | rollback hraised =>
    cases φ with
    | refused => exact hφ
    | unsaved reply => cases hφ
    | selected reply =>
      cases reply with
      | none => cases hφ
      | some reply => cases hraised
    | _ => cases hraised

/-- The numbers that a list request sends are those of its page. -/
theorem PageMove.paging (hr : r.isList = true) (h : PageMove env u r φ c s φ')
    (hc : c.paging ≠ none) : r.pageCmd u = some c := by
  cases h with
  | other hother => exact nomatch hr.symm.trans hother
  | count hcount | countRefused hcount =>
    cases r with
    | listProjects pp ties | listTasks pp filters ties =>
      obtain rfl := Option.some.inj hcount
      exact absurd rfl hc
    | _ => cases hr
  | select hpage | selectRefused hpage => exact hpage
  | commit | commitRefused | rollback => exact absurd rfl hc

end Moves

section Runs
variable {ι : Type} {requests : ι → UUID × Request} {φ : ι → PagePhase} {c : Threads ι}

/-- The list requests on their way. -/
structure Paging (requests : ι → UUID × Request) (φ : ι → PagePhase) (c : Threads ι) : Prop where
  notNull : NotNull c
  lists : ∀ i, (requests i).2.isList = true → (φ i).Fits (requests i).2 ∧
    (c.threads i).locals.written = [] ∧ (c.threads i).locals.dirty = []
  sent : ∀ e ∈ c.log, (requests e.thread).2.isList = true → e.command.paging ≠ none →
    (requests e.thread).2.pageCmd (requests e.thread).1 = some e.command

theorem pages_obey (env : Env) (w : World) (requests : ι → UUID × Request) :
    AllObey (machine env) (fun i => PageMove env (requests i).1 (requests i).2)
      (fun i => PageFinal (requests i).2) (fun _ => .start) (beside w requests) :=
  fun i => page_obeys (requests i).2

/-- A request whose page statement is `cmd` serves its page exactly if it returns one. -/
theorem pageServed_iff {R : Type} {reply : List R → Nat → Nat → Nat → Reply} {pp : PageParams}
    {i : ι} {sendable : Bool} {cmd : Cmd}
    (hreturned : (∃ r, (∃ items total, items.length ≤ pp.pageSize ∧
      r = reply items total pp.page pp.pageSize) ∧ c.outcome i = some (.ok r)) ↔ sendable = true)
    (hsent : ∀ e ∈ c.log, e.thread = i → e.command.paging ≠ none → some cmd = some e.command)
    (hcmd : cmd.paging = some ((pp.offset : Int), (pp.limit : Int)))
    (hoffset : sendable = true → bigintOk pp.offset = true) :
    PageServed reply pp c i ↔ sendable = true := by
  constructor
  · rintro ⟨-, items, total, hitems, houtcome⟩
    exact hreturned.mp ⟨_, ⟨items, total, hitems, rfl⟩, houtcome⟩
  · intro hsend
    obtain ⟨r, ⟨items, total, hitems, rfl⟩, houtcome⟩ := hreturned.mpr hsend
    refine ⟨?_, items, total, hitems, houtcome⟩
    intro e he hei offset limit hpaging
    have heq : cmd = e.command := Option.some.inj (hsent e he hei (by simp [hpaging]))
    rw [← heq, hcmd] at hpaging
    exact paging_inRange (hoffset hsend) hpaging

variable [DecidableEq ι] {env : Env}

theorem Paging.move (h : Paging requests φ c) {i : ι} {cmd : Cmd}
    {k : Except Exc cmd.Val → WorkM Reply} {φ' : PagePhase}
    (hm : PageMove env (requests i).1 (requests i).2 (φ i) cmd ((c.threads i).locals, c.world) φ') :
    Paging requests (Function.update φ i φ') (c.issue (machine env) i cmd k) := by
  refine ⟨h.notNull.issue env i cmd k, ?_, ?_⟩
  · refine forall_issue (P := fun a (ψ : PagePhase) (l : Session) => (requests a).2.isList = true →
      ψ.Fits (requests a).2 ∧ l.written = [] ∧ l.dirty = []) ?_ fun j _ => h.lists j
    intro hlist
    obtain ⟨hfits, hclean⟩ := h.lists i hlist
    exact ⟨hm.fits hlist h.notNull.world hclean hfits, hm.clean hlist hclean⟩
  · intro e he
    rw [Config.log_issue] at he
    rcases List.mem_cons.mp he with rfl | he
    · exact fun hlist hpaging => hm.paging hlist hpaging
    · exact h.sent e he

/-- A list request that has had its turns has returned a page exactly if the driver could
send its statements; the numbers it has sent are those of its page. -/
theorem list_returns (env : Env) {w : World} (hvalid : w.Valid) (requests : ι → UUID × Request)
    (schedule : List (Act ι Nat)) {i : ι} (hlist : (requests i).2.isList = true)
    (hturns : 4 ≤ turns i schedule) :
    let c := (beside w requests).run (machine env) schedule
    ((∃ reply, (requests i).2.IsPage reply ∧ c.outcome i = some (.ok reply)) ↔
        (requests i).2.sendable = true) ∧
      ∀ e ∈ c.log, e.thread = i → e.command.paging ≠ none →
        (requests i).2.pageCmd (requests i).1 = some e.command := by
  intro c
  obtain ⟨o, houtcome⟩ := (pages_obey env w requests).exists_outcome_run
    PagePhase.budget (fun _ _ _ _ hm => hm.budget hlist) hturns
  obtain ⟨φ, hobey, hpaging⟩ := run_invariant_forall (J := Paging requests)
    (fun φ c n _ h => ⟨h.notNull.drift n, h.lists, h.sent⟩)
    (fun φ c i cmd k φ' _ h _ hm => h.move hm) (pages_obey env w requests)
    ⟨.start hvalid requests, fun _ _ => ⟨trivial, rfl, rfl⟩, fun e he => nomatch he⟩ schedule
  obtain ⟨hfits, -⟩ := hpaging.lists i hlist
  have hfinal := hobey.final houtcome hlist
  refine ⟨⟨?_, ?_⟩, ?_⟩
  · rintro ⟨reply, -, hreply⟩
    obtain rfl := Option.some.inj (houtcome.symm.trans hreply)
    obtain ⟨reply', -, hphase⟩ | ⟨e, he, -⟩ := hfinal
    · rw [hphase] at hfits
      exact hfits.1
    · cases he
  · intro hsend
    obtain ⟨reply, rfl, hphase⟩ | ⟨e, -, hphase⟩ := hfinal
    · rw [hphase] at hfits
      exact ⟨reply, hfits.2, houtcome⟩
    · rw [hphase] at hfits
      exact absurd hsend hfits
  · rintro e he rfl hpage
    exact hpaging.sent e he hlist hpage

end Runs

/-- For all requests side by side and every order of their statements: a request for a page
that has had its turns (at most four: the two statements, the commit, and a rollback) has
sent numbers in range and returned the page, exactly if the offset fits a `bigint` and, for
tasks, the driver can send the search text. -/
theorem pages_in_range {ι : Type} [DecidableEq ι] (env : Env) (w : World) (hvalid : w.Valid)
    (requests : ι → UUID × Request) (schedule : List (Act ι Nat)) :
    let c := (beside w requests).run (machine env) schedule
    ∀ i, 4 ≤ turns i schedule →
      (∀ pp ties, (requests i).2 = .listProjects pp ties →
        (PageServed .projects pp c i ↔ (pp.page - 1) * pp.pageSize < 2 ^ 63)) ∧
      ∀ pp filters ties, (requests i).2 = .listTasks pp filters ties →
        (PageServed .tasks pp c i ↔
          (pp.page - 1) * pp.pageSize < 2 ^ 63 ∧ filters.sendable = true) := by
  intro c i hturns
  constructor
  · intro pp ties hr
    obtain ⟨hreturned, hsent⟩ := list_returns env hvalid requests schedule (by rw [hr]; rfl) hturns
    rw [hr] at hreturned hsent
    exact (pageServed_iff hreturned hsent rfl id).trans bigintOk_offset
  · intro pp filters ties hr
    obtain ⟨hreturned, hsent⟩ := list_returns env hvalid requests schedule (by rw [hr]; rfl) hturns
    rw [hr] at hreturned hsent
    have hboth : (Request.listTasks pp filters ties).sendable = true ↔
        filters.sendable = true ∧ bigintOk pp.offset = true := Bool.and_eq_true_iff
    rw [pageServed_iff hreturned hsent rfl fun h => (hboth.mp h).2, hboth, bigintOk_offset]
    exact and_comm

/-! ### The last page in range, and the next one -/

def lastPage : PageParams := ⟨92233720368547759, 100, by decide, by decide, by decide⟩

def lastPages : Fin 2 → UUID × Request
  | 0 => (plainUuid .zero .zero, .listProjects lastPage idOrder)
  | 1 => (plainUuid .zero .zero, .listTasks lastPage noFilters idOrder)

theorem pages_in_range_last :
    let c := (beside oneTask lastPages).run (machine plainEnv)
      [.step 0, .step 1, .step 1, .step 0, .step 0, .step 1, .step 0, .step 1]
    PageServed .projects lastPage c 0 ∧ PageServed .tasks lastPage c 1 := by
  intro c
  have h := pages_in_range plainEnv oneTask (by decide +kernel) lastPages
    [.step 0, .step 1, .step 1, .step 0, .step 0, .step 1, .step 0, .step 1]
  exact ⟨((h 0 (by decide)).1 lastPage idOrder rfl).mpr (by decide),
    ((h 1 (by decide)).2 lastPage noFilters idOrder rfl).mpr ⟨by decide, rfl⟩⟩

/-- A number in decimal digits. -/
def decimal (s : String) : Option Int :=
  s.toList.foldlM (fun n c => if c.isDigit then some (10 * n + (c.toNat - 48 : Nat)) else none) 0

def decimalPydantic : Pydantic := { plainPydantic with int := decimal }

def beyondPage : PageParams := ⟨92233720368547760, 100, by decide, by decide, by decide⟩

/-- The validator lets the next page through, its OFFSET is no `bigint`, and the driver raises. -/
theorem pages_beyond_range :
    HttpRequest.validate decimalPydantic (.getTasks
        [("page", "92233720368547760"), ("page_size", "100")] idOrder) =
      some (.listTasks beyondPage noFilters idOrder) ∧
    let c := (beside oneTask fun _ : Fin 1 =>
      (plainUuid .zero .zero, .listTasks beyondPage noFilters idOrder)).run (machine plainEnv)
        (List.replicate 4 (.step 0))
    (∃ e ∈ c.log, e.command.paging = some (9223372036854775900, 100)) ∧
      c.outcome 0 = some (.error .dbError) ∧ ¬ PageServed .tasks beyondPage c 0 := by
  refine ⟨rfl, ?_⟩
  intro c
  have houtcome : c.outcome 0 = some (.error .dbError) := by decide +kernel
  refine ⟨by decide +kernel, houtcome, ?_⟩
  rintro ⟨-, items, total, -, hreturned⟩
  rw [houtcome] at hreturned
  cases hreturned

end TaskMgtApp.Work
