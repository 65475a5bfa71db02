import TaskMgtApp.Lib.Paging
import TaskMgtApp.Work.Refinement

/-!
# All pages of a list

Every page is the answer to a request of its own, over the same state. ORDER BY is
`created_at DESC` alone, so rows of the same `created_at` may come in another order
on every page. The pages are a partition of the matching rows exactly if no two rows
of the same `created_at` are on the two sides of a page boundary, and if the driver
can send the search text and the offset of the last page that is asked for.
-/
namespace TaskMgtApp.Work

open TaskMgtApp.Common
open TaskMgtApp.Lib.Rows TaskMgtApp.Lib.Listing

/-- `Page.total_pages`. -/
def totalPages (total pageSize : Nat) : Nat :=
  if pageSize = 0 then 0 else (total + pageSize - 1) / pageSize

/-- A `page_size` that `PageParams` admits. -/
abbrev PageSize := { k : Nat // 1 ≤ k ∧ k ≤ maxPageSize }

/-- The parameters of the page with `p` pages before it. -/
def PageSize.nth (k : PageSize) (p : Nat) : PageParams where
  page := p + 1
  pageSize := k.1
  page_pos := Nat.le_add_left 1 p
  size_pos := k.2.1
  size_le := k.2.2

/-- The answers for the pages up to one after `last` others list every row once, with the
total and the sizes that they should have. -/
structure PagesOf {R : Type} (reply : List R → Nat → Nat → Nat → Reply) (rows : List R) (k last : Nat)
    (answers : Nat → Except Exc Reply) (items : Nat → List R) : Prop where
  answered : ∀ p ≤ last, answers p = .ok (reply (items p) rows.length (p + 1) k)
  once : ((List.range (totalPages rows.length k)).flatMap items).Perm rows
  size : ∀ p < totalPages rows.length k, (items p).length = min k (rows.length - p * k)
  beyond : ∀ p ≤ last, totalPages rows.length k ≤ p → items p = []

/-! ## Arithmetic -/

section Arithmetic
variable {total k p : Nat}

theorem le_totalPages_mul (hk : 1 ≤ k) : total ≤ totalPages total k * k := by
  rw [totalPages, if_neg (by omega)]
  have hdiv := Nat.div_add_mod (total + k - 1) k
  have hmod := Nat.mod_lt (total + k - 1) (show 0 < k by omega)
  rw [Nat.mul_comm k] at hdiv
  omega

theorem le_mul_of_totalPages_le (hk : 1 ≤ k) (h : totalPages total k ≤ p) : total ≤ p * k :=
  (le_totalPages_mul hk).trans (Nat.mul_le_mul_right k h)

theorem bigintOk_mul (hp : p ≤ total) (h : bigintOk (total * k) = true) : bigintOk (p * k) = true := by
  have hle := Nat.mul_le_mul_right k hp
  simp only [bigintOk, decide_eq_true_eq] at h ⊢
  omega

end Arithmetic

/-! ## Orders of ties -/

/-- The order that puts one row before all others of its time. -/
def TieOrder.promote (ties : TieOrder) (id : UUID) : TieOrder where
  rank u := if u = id then 0 else ties.rank u + 1
  injective u v h := by
    split at h <;> split at h
    · rename_i hu hv
      rw [hu, hv]
    · omega
    · omega
    · exact ties.injective u v (Nat.succ.inj h)

theorem TieOrder.promote_first (ties : TieOrder) {u id : UUID}
    (h : (ties.promote id).rank u ≤ (ties.promote id).rank id) : u = id := by
  by_contra hne
  simp [promote, hne] at h

/-! ## Pages of any rows -/

section Pages
variable {M R : Type} [Entity M] {rows : List M} {read : M → R}
  {reply : List R → Nat → Nat → Nat → Reply} {k : PageSize} {last : Nat} {sendable : Bool}
  {answers : (Nat → TieOrder) → Nat → Except Exc Reply}

/-- What the page with `p` pages before it is answered with. -/
def Answers (rows : List M) (read : M → R) (reply : List R → Nat → Nat → Nat → Reply) (k : PageSize)
    (sendable : Bool) (answers : (Nat → TieOrder) → Nat → Except Exc Reply) : Prop :=
  ∀ ties p, answers ties p =
    if sendable && bigintOk (p * k.1) then
      .ok (reply ((page (p * k.1) k.1 (newest (ties p) rows)).map read) rows.length (p + 1) k.1)
    else .error .dbError

theorem pagesOf_of_cleanCuts (hanswers : Answers rows read reply k sendable answers)
    (hsendable : sendable = true) (hbigint : bigintOk (last * k.1) = true)
    (hclean : ∀ j, CleanCut Entity.createdAt rows (j * k.1)) (ties : Nat → TieOrder) :
    PagesOf reply (rows.map read) k.1 last (answers ties) fun p =>
      (page (p * k.1) k.1 (newest (ties p) rows)).map read where
  answered p hp := by
    rw [hanswers, hsendable, bigintOk_mul hp hbigint, List.length_map]
    rfl
  once := by
    rw [List.length_map, ← List.map_flatMap]
    exact (pages_perm (le_totalPages_mul k.2.1) hclean).map read
  size p _ := by
    rw [List.length_map, List.length_map]
    exact length_page ..
  beyond p _ hp := by
    rw [List.length_map] at hp
    rw [List.map_eq_nil_iff, ← List.length_eq_zero_iff]
    have hlength : (page (p * k.1) k.1 (newest (ties p) rows)).length =
        min k.1 (rows.length - p * k.1) := length_page ..
    have hle := le_mul_of_totalPages_le k.2.1 hp
    omega

theorem cleanCut_of_pagesOf (hkeyed : Keyed Entity.id rows)
    (hread : ∀ a b, read a = read b → Entity.id a = Entity.id b)
    (hreply : ∀ a b n p k, reply a n p k = reply b n p k → a = b)
    (hanswers : Answers rows read reply k sendable answers)
    (hlast : totalPages rows.length k.1 ≤ last + 1)
    (h : ∀ ties, ∃ items, PagesOf reply (rows.map read) k.1 last (answers ties) items) (j : Nat) :
    CleanCut Entity.createdAt rows (j * k.1) := by
  by_contra hcut
  obtain ⟨y, hy, htake, hdrop⟩ := exists_missed (fun m => idOrder.rank (Entity.id m))
    (List.Nodup.of_map _ hkeyed) hcut
  have hfirst := hdrop (fun m => (idOrder.promote (Entity.id y)).rank (Entity.id m))
    fun b hb hrank => hkeyed.eq_of_key hb hy (idOrder.promote_first hrank)
  obtain ⟨items, hitems⟩ := h fun p => if p < j then idOrder else idOrder.promote (Entity.id y)
  have honce := hitems.once
  rw [List.length_map] at honce
  have hmem : read y ∈ (List.range (totalPages rows.length k.1)).flatMap items :=
    honce.symm.subset (List.mem_map_of_mem hy)
  obtain ⟨p, hp, hyp⟩ := List.mem_flatMap.mp hmem
  have hanswered := hitems.answered p (by rw [List.mem_range] at hp; omega)
  rw [hanswers, List.length_map] at hanswered
  split at hanswered
  · rw [← hreply _ _ _ _ _ (Except.ok.inj hanswered)] at hyp
    obtain ⟨z, hz, hzy⟩ := List.mem_map.mp hyp
    have hzrows : z ∈ rows := latestFirst_subset.mp (page_subset hz)
    obtain rfl := hkeyed.eq_of_key hzrows hy (hread z y hzy)
    refine not_mem_pages (m := totalPages rows.length k.1) htake hfirst ?_
    refine List.mem_flatMap.mpr ⟨p, hp, ?_⟩
    by_cases hpj : p < j
    · simp only [hpj, if_true] at hz ⊢
      exact hz
    · simp only [hpj, if_false] at hz ⊢
      exact hz
  · cases hanswered

/-- When all pages of a list are a partition of the rows. -/
theorem pagesOf_iff (hkeyed : Keyed Entity.id rows)
    (hread : ∀ a b, read a = read b → Entity.id a = Entity.id b)
    (hreply : ∀ a b n p k, reply a n p k = reply b n p k → a = b)
    (hanswers : Answers rows read reply k sendable answers)
    (hlast : totalPages rows.length k.1 ≤ last + 1) :
    (∀ ties, ∃ items, PagesOf reply (rows.map read) k.1 last (answers ties) items) ↔
      sendable = true ∧ bigintOk (last * k.1) = true ∧
        ∀ j, CleanCut Entity.createdAt rows (j * k.1) := by
  constructor
  · intro h
    obtain ⟨items, hitems⟩ := h fun _ => idOrder
    have hanswered := hitems.answered last (Nat.le_refl last)
    rw [hanswers] at hanswered
    split at hanswered
    · rename_i hboth
      rw [Bool.and_eq_true] at hboth
      exact ⟨hboth.1, hboth.2, cleanCut_of_pagesOf hkeyed hread hreply hanswers hlast h⟩
    · cases hanswered
  · rintro ⟨hsendable, hbigint, hclean⟩ ties
    exact ⟨_, pagesOf_of_cleanCuts hanswers hsendable hbigint hclean ties⟩

end Pages

/-! ## The pages of the two lists -/

section Lists
variable {env : Env} {w : World} {u : UUID} {filters : TaskFilters} {k : PageSize}

theorem tasksFor_keyed (hvalid : w.Valid) : Keyed Task.id (w.tasksFor env u filters) :=
  hvalid.taskIds.sublist (List.filter_sublist.trans (List.filter_sublist.trans List.filter_sublist))

theorem offset_nth (k : PageSize) (p : Nat) : (k.nth p).offset = p * k.1 := by
  simp [PageParams.offset, PageSize.nth]

theorem answers_listTasks (env : Env) (u : UUID) (filters : TaskFilters) (k : PageSize)
    (hvalid : w.Valid) :
    Answers (w.tasksFor env u filters) Task.read .tasks k filters.sendable fun ties p =>
      (serve env w u (.listTasks (k.nth p) filters (ties p))).1 := by
  intro ties p
  dsimp only
  rw [serve_listTasks, offset_nth]
  split
  · rw [page_tasks env u hvalid.filled]
    rfl
  · rfl

theorem answers_listProjects (env : Env) (u : UUID) (k : PageSize) (hvalid : w.Valid) :
    Answers (ownedProjects w.projects u) Project.read .projects k true fun ties p =>
      (serve env w u (.listProjects (k.nth p) (ties p))).1 := by
  intro ties p
  dsimp only
  rw [serve_listProjects, offset_nth, Bool.true_and]
  split
  · rw [page_projects u hvalid.filled]
    rfl
  · rfl

end Lists

/-- For every state, owner, filters and page size, and any number of pages after the first
that includes all `total_pages` of them, whatever order the database chooses for rows of the
same `created_at` on each page: the pages are a partition of the matching rows, with the
right totals and sizes, exactly if no page boundary has rows of the same `created_at` on
its two sides, the driver can send the search text, and it can send the last offset. -/
theorem pages_partition (env : Env) (w : World) (hvalid : w.Valid) (u : UUID) (filters : TaskFilters)
    (k : PageSize) (last : Nat) :
    (totalPages (w.tasksFor env u filters).length k.1 ≤ last + 1 →
      ((∀ ties : Nat → TieOrder, ∃ items, PagesOf .tasks ((w.tasksFor env u filters).map Task.read)
          k.1 last (fun p => (serve env w u (.listTasks (k.nth p) filters (ties p))).1) items) ↔
        filters.sendable = true ∧ bigintOk (last * k.1) = true ∧
          ∀ j, CleanCut Task.createdAt (w.tasksFor env u filters) (j * k.1))) ∧
    (totalPages (ownedProjects w.projects u).length k.1 ≤ last + 1 →
      ((∀ ties : Nat → TieOrder, ∃ items, PagesOf .projects
          ((ownedProjects w.projects u).map Project.read) k.1 last
          (fun p => (serve env w u (.listProjects (k.nth p) (ties p))).1) items) ↔
        bigintOk (last * k.1) = true ∧
          ∀ j, CleanCut Project.createdAt (ownedProjects w.projects u) (j * k.1))) := by
  constructor
  · intro hlast
    exact pagesOf_iff (tasksFor_keyed hvalid) (fun a b h => congrArg TaskRead.id h)
      (fun a b n p k h => (Reply.tasks.inj h).1) (answers_listTasks env u filters k hvalid) hlast
  · intro hlast
    have hiff := pagesOf_iff (ownedProjects_keyed hvalid) (fun a b h => congrArg ProjectRead.id h)
      (fun a b n p k h => (Reply.projects.inj h).1) (answers_listProjects env u k hvalid) hlast
    rw [hiff]
    simp only [true_and]
    rfl

/-! ### Three tasks -/

/-- A project with three tasks, created at these times. -/
def threeTasks (first second third : Nat) : World where
  now := 100
  projects := [⟨plainUuid .one .zero, plainUuid .zero .zero, some "Thesis", none, 10, 10, none⟩]
  tasks := [
    ⟨plainUuid .two .zero, plainUuid .one .zero, some "Read", none, some .todo, some .medium, none,
      first, first, none⟩,
    ⟨plainUuid .two .one, plainUuid .one .zero, some "Write", none, some .todo, some .medium, none,
      second, second, none⟩,
    ⟨plainUuid .two .two, plainUuid .one .zero, some "Print", none, some .todo, some .medium, none,
      third, third, none⟩]

def noFilters : TaskFilters := ⟨none, none, none, none⟩

def twoPerPage : PageSize := ⟨2, by decide⟩

/-- Created at different times, the tasks are on the pages, here with another order of ties on
every other page. -/
theorem pages_partition_apart : ∃ items, PagesOf .tasks
    (((threeTasks 20 30 40).tasksFor plainEnv (plainUuid .zero .zero) noFilters).map Task.read)
    twoPerPage.1 5 (fun p => (serve plainEnv (threeTasks 20 30 40) (plainUuid .zero .zero)
      (.listTasks (twoPerPage.nth p) noFilters (if p % 2 = 0 then idOrder else
        idOrder.promote (plainUuid .two .two)))).1) items := by
  have h := ((pages_partition plainEnv (threeTasks 20 30 40) (by decide +kernel)
    (plainUuid .zero .zero) noFilters twoPerPage 5).1 (by decide +kernel)).mpr
    ⟨rfl, by decide, fun j => .of_nodup (by decide +kernel) _⟩
  exact h _

/-- Created at one time, as rows of one transaction are, one of them can be missing from
both pages. -/
theorem pages_partition_tied : ¬ ∀ ties : Nat → TieOrder, ∃ items, PagesOf .tasks
    (((threeTasks 20 20 20).tasksFor plainEnv (plainUuid .zero .zero) noFilters).map Task.read)
    twoPerPage.1 1 (fun p => (serve plainEnv (threeTasks 20 20 20) (plainUuid .zero .zero)
      (.listTasks (twoPerPage.nth p) noFilters (ties p))).1) items := by
  intro h
  have hvalid : (threeTasks 20 20 20).Valid := by decide +kernel
  have hclean := cleanCut_of_pagesOf (tasksFor_keyed hvalid) (fun a b h => congrArg TaskRead.id h)
    (fun a b n p k h => (Reply.tasks.inj h).1)
    (answers_listTasks plainEnv (plainUuid .zero .zero) noFilters twoPerPage hvalid)
    (by decide +kernel) h 1
  revert hclean
  decide +kernel

end TaskMgtApp.Work
