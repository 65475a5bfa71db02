import TaskMgtApp.Lib.Substring
import TaskMgtApp.Work.Refinement

/-!
# The search of the task list

`list_for_owner` puts the search text between two percent signs and leaves it as it is.
It is a search for a substring, ignoring letter case, exactly if the text has none of
the three characters that ILIKE reads as wildcards and escapes; with a NUL in it, or an
offset beyond `bigint`, the driver cannot send the query at all.
-/
namespace TaskMgtApp.Work

open TaskMgtApp.Common
open TaskMgtApp.Lib.Like TaskMgtApp.Lib.Rows TaskMgtApp.Lib.Listing
open TaskMgtApp.Lib.Program.Prog

/-- Whether the text of a column has `s` as a substring, ignoring letter case. -/
def containsFold (env : Env) (s : String) (column : Option String) : Bool :=
  match column with
  | none => false
  | some text => decide (s.toList.map env.lower <:+: text.toList.map env.lower)

/-- The visible tasks that match the other filters and have `s` in their title or description. -/
def World.searched (env : Env) (w : World) (owner : UUID) (filters : TaskFilters) (s : String) :
    List Task :=
  (ownedTasks w.projects w.tasks owner).filter fun t =>
    { filters with search := none }.admits env t &&
      (containsFold env s t.title || containsFold env s t.description)

/-- Lower case keeps the characters that are special in a pattern apart from all others. -/
def KeepsWild (env : Env) : Prop := ∀ c w, wild w = true → (env.lower c = w ↔ c = w)

section Search
variable {env : Env} {s : String}

theorem run_listForOwner (env : Env) (w : World) (owner : UUID) (filters : TaskFilters)
    (pp : PageParams) (ties : TieOrder) :
    ((TaskRepository.listForOwner owner filters pp ties).run (exec env) (.empty, w)).1 =
      if filters.sendable && bigintOk pp.offset then
        .ok (page pp.offset pp.limit (newest ties (w.tasksFor env owner filters)),
          (w.tasksFor env owner filters).length)
      else .error .dbError := by
  unfold TaskRepository.listForOwner World.tasksFor
  simp only [run_bind, execute, run_perform, exec, bigintOk_limit, Bool.and_true, projects_empty,
    tasks_empty]
  cases filters.sendable with
  | false => rfl
  | true => cases bigintOk pp.offset <;> rfl

theorem pattern_search (hs : s ≠ "") (filters : TaskFilters) :
    { filters with search := some s }.pattern = some ("%" ++ s ++ "%") := by
  simp [TaskFilters.pattern, hs]

theorem sendable_search (hs : s ≠ "") (filters : TaskFilters) :
    { filters with search := some s }.sendable = textOk s := by
  rw [TaskFilters.sendable, pattern_search hs]
  simp [textOk]

/-- The filters with a search are the others and the ILIKE of the two columns. -/
theorem admits_search (hs : s ≠ "") (filters : TaskFilters) (t : Task) :
    { filters with search := some s }.admits env t =
      ({ filters with search := none }.admits env t &&
        (ilike env ("%" ++ s ++ "%") t.title || ilike env ("%" ++ s ++ "%") t.description)) := by
  rw [TaskFilters.admits, TaskFilters.admits, pattern_search hs]
  simp [TaskFilters.pattern]

theorem pattern_around (hlower : KeepsWild env) (s : String) :
    ("%" ++ s ++ "%").toList.map env.lower = around (s.toList.map env.lower) := by
  have hpercent : env.lower '%' = '%' := (hlower '%' '%' rfl).mpr rfl
  simp [around, hpercent]

theorem map_lower_plain (hlower : KeepsWild env) {cs : List Char} (h : ∀ c ∈ cs, wild c = false) :
    ∀ c ∈ cs.map env.lower, wild c = false := by
  intro c hc
  obtain ⟨d, hd, rfl⟩ := List.mem_map.mp hc
  rw [Bool.eq_false_iff]
  intro hwild
  have heq := (hlower d _ hwild).mp rfl
  rw [← heq, h d hd] at hwild
  cases hwild

/-- Without wildcards ILIKE is the search for a substring. -/
theorem ilike_search (hlower : KeepsWild env) (hplain : ∀ c ∈ s.toList, wild c = false)
    (column : Option String) : ilike env ("%" ++ s ++ "%") column = containsFold env s column := by
  cases column with
  | none => rfl
  | some text =>
    rw [ilike, containsFold, pattern_around hlower, like_substring (map_lower_plain hlower hplain)]
    rfl

theorem tasksFor_search (hlower : KeepsWild env) (hs : s ≠ "")
    (hplain : ∀ c ∈ s.toList, wild c = false) (w : World) (owner : UUID) (filters : TaskFilters) :
    w.tasksFor env owner { filters with search := some s } = w.searched env owner filters s := by
  apply List.filter_congr
  intro t _
  rw [admits_search hs, ilike_search hlower hplain, ilike_search hlower hplain]

/-! ## A task that the search finds by mistake -/

/-- A task with a description that the pattern matches. -/
def looseTask (s : String) : Task where
  id := plainUuid .two .zero
  projectId := plainUuid .one .zero
  title := some "x"
  description := some (String.ofList (loosely 'x' s.toList))
  status := some .todo
  priority := some .medium
  dueDate := none
  createdAt := 0
  updatedAt := 0
  deletedAt := none

def looseWorld (s : String) : World where
  now := 0
  projects := [⟨plainUuid .one .zero, plainUuid .zero .zero, some "Thesis", none, 0, 0, none⟩]
  tasks := [looseTask s]

theorem mem_loosely {x c : Char} {p : List Char} (h : c ∈ loosely x p) :
    c ∈ p ∨ c = x ∨ c = '%' := by
  fun_induction loosely x p <;> simp only [List.mem_cons, List.not_mem_nil, or_false] at * <;> tauto

theorem looseWorld_valid (hs : textOk s = true) : (looseWorld s).Valid where
  projectIds := List.nodup_singleton _
  taskIds := List.nodup_singleton _
  projectRows := by
    intro p hp
    rw [List.mem_singleton.mp hp]
    decide
  taskRows := by
    intro t ht
    rw [List.mem_singleton.mp ht]
    have hdescription : textOk (String.ofList (loosely 'x' s.toList)) = true := by
      simp only [textOk, Bool.not_eq_true', String.toList_ofList, List.contains_eq_mem,
        decide_eq_false_iff_not] at hs ⊢
      intro h
      rcases mem_loosely h with h | h | h
      · exact hs h
      · revert h
        decide
      · revert h
        decide
    simp only [Task.storable, looseWorld, looseTask, List.all_cons, List.all_nil, TaskAttr.storable,
      Option.elim_some, hdescription]
    decide

theorem looseWorld_owned (s : String) :
    ownedTasks (looseWorld s).projects (looseWorld s).tasks (plainUuid .zero .zero) =
      [looseTask s] := by
  simp [ownedTasks, ownedProjects, active, looseWorld, looseTask, Entity.deletedAt]

/-- A text with a wildcard is in no text without one. -/
theorem not_containsFold_x (hlower : KeepsWild env) (hwild : ∃ c ∈ s.toList, wild c = true) :
    containsFold env s (some "x") = false := by
  rw [containsFold, decide_eq_false_iff_not]
  intro hinfix
  obtain ⟨c, hc, hcwild⟩ := hwild
  have hmem : env.lower c ∈ ("x".toList).map env.lower :=
    hinfix.subset (List.mem_map_of_mem hc)
  rw [(hlower c c hcwild).mpr rfl] at hmem
  have hplain : wild c = false :=
    map_lower_plain hlower (show ∀ d ∈ "x".toList, wild d = false by simp [wild]) c hmem
  rw [hcwild] at hplain
  cases hplain

theorem looseWorld_differs (hlower : KeepsWild env) (hs : s ≠ "")
    (hwild : ∃ c ∈ s.toList, wild c = true) :
    ((looseWorld s).tasksFor env (plainUuid .zero .zero) ⟨none, none, none, some s⟩).length = 1 ∧
      ((looseWorld s).searched env (plainUuid .zero .zero) ⟨none, none, none, none⟩ s).length = 0 := by
  have hx : env.lower 'x' ≠ '_' := by
    intro h
    have := (hlower 'x' '_' rfl).mp h
    revert this
    decide
  have hmap := map_loosely hlower 'x' s.toList
  have hfound : ilike env ("%" ++ s ++ "%") (some (String.ofList (loosely 'x' s.toList))) = true := by
    rw [ilike, pattern_around hlower, String.toList_ofList, hmap, loosely_like]
    rfl
  have hmissing : containsFold env s (some (String.ofList (loosely 'x' s.toList))) = false := by
    rw [containsFold, decide_eq_false_iff_not, String.toList_ofList, hmap]
    refine not_infix_loosely hx ?_
    obtain ⟨c, hc, hcwild⟩ := hwild
    refine ⟨env.lower c, List.mem_map_of_mem hc, ?_⟩
    rw [(hlower c c hcwild).mpr rfl, hcwild]
  constructor
  · have hadmits := @admits_search env s hs ⟨none, none, none, none⟩ (looseTask s)
    have hdescription : (looseTask s).description =
        some (String.ofList (loosely 'x' s.toList)) := rfl
    rw [hdescription, hfound, Bool.or_true, Bool.and_true] at hadmits
    rw [World.tasksFor, looseWorld_owned, List.filter_cons_of_pos (hadmits.trans rfl)]
    rfl
  · have htitle : (looseTask s).title = some "x" := rfl
    have hdescription : (looseTask s).description =
        some (String.ofList (loosely 'x' s.toList)) := rfl
    rw [World.searched, looseWorld_owned, List.filter_cons_of_neg]
    · rfl
    · rw [htitle, hdescription, not_containsFold_x hlower hwild, hmissing]
      simp

end Search

/-- For every search text that is not empty, and every page and order of ties: the search
selects, in every state and for every owner and other filters, exactly the visible tasks
with the text in their title or description, ignoring letter case, if and only if the
text has no percent sign, underscore, backslash or NUL, and the offset is a `bigint`. -/
theorem search_literal (env : Env) (hlower : KeepsWild env) (s : String) (hs : s ≠ "")
    (pp : PageParams) (ties : TieOrder) :
    (∀ (w : World), w.Valid → ∀ (owner : UUID) (filters : TaskFilters),
      ((TaskRepository.listForOwner owner { filters with search := some s } pp ties).run (exec env)
        (.empty, w)).1 = .ok (page pp.offset pp.limit (newest ties (w.searched env owner filters s)),
          (w.searched env owner filters s).length)) ↔
      (∀ c ∈ s.toList, wild c = false) ∧ textOk s = true ∧ bigintOk pp.offset = true := by
  constructor
  · intro hliteral
    have hnone := hliteral noRows noRows_valid (plainUuid .zero .zero) ⟨none, none, none, none⟩
    rw [run_listForOwner, sendable_search hs] at hnone
    split at hnone
    · rename_i hsend
      obtain ⟨htext, hoffset⟩ := Bool.and_eq_true_iff.mp hsend
      refine ⟨?_, htext, hoffset⟩
      by_contra hwild
      simp only [not_forall, Bool.not_eq_false] at hwild
      obtain ⟨c, hc, hcwild⟩ := hwild
      have hloose := hliteral (looseWorld s) (looseWorld_valid htext) (plainUuid .zero .zero)
        ⟨none, none, none, none⟩
      obtain ⟨hone, hzero⟩ := looseWorld_differs hlower hs ⟨c, hc, hcwild⟩
      rw [run_listForOwner, sendable_search hs, if_pos hsend] at hloose
      have htotal := (Prod.mk.inj (Except.ok.inj hloose)).2
      rw [hone, hzero] at htotal
      cases htotal
    · cases hnone
  · rintro ⟨hplain, htext, hoffset⟩ w _ owner filters
    rw [run_listForOwner, sendable_search hs, htext, hoffset, tasksFor_search hlower hs hplain]
    rfl

/-! ### ASCII lower case -/

theorem plainEnv_keepsWild : KeepsWild plainEnv := by
  intro c w hw
  by_cases h : c.val ≥ 'A'.val ∧ c.val ≤ 'Z'.val
  · have hval : (plainEnv.lower c).val = c.val + 32 := congrArg Char.val (dif_pos h)
    have hrange : 65 ≤ c.val.toNat ∧ c.val.toNat ≤ 90 := by
      simpa [UInt32.le_iff_toNat_le] using h
    have hnat : (plainEnv.lower c).val.toNat = c.val.toNat + 32 := by
      rw [hval, UInt32.toNat_add]
      have h32 : (32 : UInt32).toNat = 32 := rfl
      rw [h32]
      omega
    simp only [wild, List.contains_cons, List.contains_nil, Bool.or_false, Bool.or_eq_true,
      beq_iff_eq] at hw
    have hwval : w.val.toNat = 37 ∨ w.val.toNat = 95 ∨ w.val.toNat = 92 := by
      rcases hw with rfl | rfl | rfl
      · exact .inl rfl
      · exact .inr (.inl rfl)
      · exact .inr (.inr rfl)
    constructor
    · intro heq
      rw [heq] at hnat
      omega
    · intro heq
      rw [heq] at hrange
      omega
  · have hsame : plainEnv.lower c = c := dif_neg h
    rw [hsame]

/-- A search for a word, in a state with a task that has it in its title. -/
theorem search_literal_word :
    ((TaskRepository.listForOwner (plainUuid .zero .zero) ⟨none, none, none, some "X"⟩ firstPage
      idOrder).run (exec plainEnv) (.empty, looseWorld "y")).1 =
      .ok (page firstPage.offset firstPage.limit (newest idOrder ((looseWorld "y").searched plainEnv
        (plainUuid .zero .zero) ⟨none, none, none, none⟩ "X")),
        ((looseWorld "y").searched plainEnv (plainUuid .zero .zero) ⟨none, none, none, none⟩
          "X").length) :=
  (search_literal plainEnv plainEnv_keepsWild "X" (by decide) firstPage idOrder).mpr
    ⟨by simp [wild], by decide, by decide⟩ (looseWorld "y") (by decide +kernel)
    (plainUuid .zero .zero) ⟨none, none, none, none⟩

/-- A search for `a_b` finds a task with `axb` in its description. -/
theorem search_literal_underscore :
    ¬ ∀ (w : World), w.Valid → ∀ (owner : UUID) (filters : TaskFilters),
      ((TaskRepository.listForOwner owner { filters with search := some "a_b" } firstPage
        idOrder).run (exec plainEnv) (.empty, w)).1 =
        .ok (page firstPage.offset firstPage.limit (newest idOrder (w.searched plainEnv owner filters
          "a_b")), (w.searched plainEnv owner filters "a_b").length) := by
  intro h
  have hloose := h (looseWorld "a_b") (by decide +kernel) (plainUuid .zero .zero)
    ⟨none, none, none, none⟩
  revert hloose
  decide +kernel

end TaskMgtApp.Work
