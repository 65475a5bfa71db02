import TaskMgtApp.Work.Concurrent

/-!
# What a session holds while its request is under way

A session is described by the phase of its request: what it may have written, what
it may still flush, and what it knows of the project it is about. Every move of the
request keeps that description true, as long as the tables stay as they are.
-/
namespace TaskMgtApp.Work

open TaskMgtApp.Common
open TaskMgtApp.Lib.Program TaskMgtApp.Lib.Program.Prog
open TaskMgtApp.Lib.Rows

/-! ## What a session has written -/

/-- A write that a request may have made in its phase. -/
def Write.allowed (r : Request) (φ : Phase) : Write → Prop
  | insertProject row => row.deletedAt = none ∧ r.projectDraw = some row.id
  | updateProject id fields _ =>
      (∀ a ∈ fields, a.updatable) ∨ (φ = .cascaded id ∧ ∃ n, fields = [.deletedAt (some n)])
  | insertTask row => φ = .inserted row.projectId
  | updateTasks _ fields _ => ∀ a ∈ fields, a.keeps

/-- An assignment that a request may have made in its phase. -/
def Dirty.allowed (φ : Phase) : Dirty → Prop
  | project loaded fields =>
      (∀ a ∈ fields, a.updatable) ∨ (φ = .cascaded loaded.id ∧ ∃ n, fields = [.deletedAt (some n)])
  | task _ fields => ∀ a ∈ fields, a.keeps

def Write.isUpdate : Write → Prop
  | updateProject .. | updateTasks .. => True
  | insertProject _ | insertTask _ => False

/-- The ids of the projects that a list of writes inserts. -/
def insertedIds (writes : List Write) : List UUID :=
  writes.filterMap fun
    | .insertProject row => some row.id
    | _ => none

section Writes
variable {r : Request} {φ : Phase} {x : Write} {writes : List Write}

theorem Task.setattrs_keep {fields : List TaskAttr} (h : ∀ a ∈ fields, a.keeps) (t : Task) :
    (t.setattrs fields).projectId = t.projectId ∧
      ((t.setattrs fields).deletedAt = none → t.deletedAt = none) := by
  induction fields generalizing t with
  | nil => exact ⟨rfl, fun h => h⟩
  | cons a as ih =>
    obtain ⟨hproject, hdeleted⟩ := ih (fun b hb => h b (List.mem_cons_of_mem _ hb)) (t.setattr a)
    have ha := h a List.mem_cons_self
    cases a with
    | projectId v => cases ha
    | deletedAt v =>
      cases v with
      | none => cases ha
      | some n =>
        refine ⟨hproject, fun hnone => ?_⟩
        cases hdeleted hnone
    | title v => exact ⟨hproject, hdeleted⟩
    | description v => exact ⟨hproject, hdeleted⟩
    | status v => exact ⟨hproject, hdeleted⟩
    | priority v => exact ⟨hproject, hdeleted⟩
    | dueDate v => exact ⟨hproject, hdeleted⟩

theorem Task.setattrs_deletedAt {s t : Task} (h : t.deletedAt = none → s.deletedAt = none)
    (fields : List TaskAttr) :
    (t.setattrs fields).deletedAt = none → (s.setattrs fields).deletedAt = none := by
  induction fields generalizing s t with
  | nil => exact h
  | cons a as ih =>
    apply ih
    cases a with
    | deletedAt v => exact fun hv => hv
    | projectId v => exact h
    | title v => exact h
    | description v => exact h
    | status v => exact h
    | priority v => exact h
    | dueDate v => exact h

/-- Only a cascade in its last steps writes a deleted project where there was none. -/
theorem deleted_before {rows : List Project} {p' : Project} (hx : ∀ x ∈ writes, x.allowed r φ)
    (hp : p' ∈ writes.foldl Write.onProjects rows) (hdeleted : p'.deletedAt ≠ none) :
    φ = .cascaded p'.id ∨ ∃ p ∈ rows, p.id = p'.id ∧ p.deletedAt ≠ none := by
  induction writes generalizing rows with
  | nil => exact .inr ⟨p', hp, rfl, hdeleted⟩
  | cons x xs ih =>
    have hx₁ := hx x List.mem_cons_self
    rcases ih (fun y hy => hx y (List.mem_cons_of_mem _ hy)) hp with h | ⟨p, hp, hid, hd⟩
    · exact .inl h
    · cases x with
      | insertTask row => exact .inr ⟨p, hp, hid, hd⟩
      | updateTasks ids fields n => exact .inr ⟨p, hp, hid, hd⟩
      | insertProject row =>
        rcases List.mem_append.mp hp with hp | hp
        · exact .inr ⟨p, hp, hid, hd⟩
        · obtain rfl := List.mem_singleton.mp hp
          exact absurd hx₁.1 hd
      | updateProject id fields n =>
        obtain ⟨q, hq, rfl⟩ := List.mem_map.mp hp
        by_cases hqid : q.id = id
        · rw [if_pos hqid] at hid hd
          rw [← hid]
          rcases hx₁ with hfields | ⟨hφ, -⟩
          · right
            refine ⟨q, hq, (Project.setattrs_id q fields).symm, ?_⟩
            rwa [← (Project.setattrs_keeps q hfields).2]
          · left
            rw [hφ, ← hqid]
            exact congrArg Phase.cascaded (Project.setattrs_id q fields).symm
        · rw [if_neg hqid] at hid hd
          exact .inr ⟨q, hq, hid, hd⟩

/-- The ids of the projects after the writes. -/
theorem ids_after (writes : List Write) (rows : List Project) :
    (writes.foldl Write.onProjects rows).map Project.id =
      rows.map Project.id ++ insertedIds writes := by
  induction writes generalizing rows with
  | nil => simp [insertedIds]
  | cons x xs ih =>
    rw [List.foldl_cons, ih]
    cases x with
    | insertProject row => simp [Write.onProjects, insertedIds]
    | insertTask row => rfl
    | updateTasks ids fields n => rfl
    | updateProject id fields n =>
      have hids : (Write.onProjects rows (.updateProject id fields n)).map Project.id =
          rows.map Project.id := by
        simp only [Write.onProjects, List.map_map]
        refine List.map_congr_left fun p _ => ?_
        by_cases hp : p.id = id <;> simp [hp]
      rw [hids]
      rfl

theorem insertedIds_drawn (hx : ∀ x ∈ writes, x.allowed r φ) {id : UUID}
    (hid : id ∈ insertedIds writes) : r.projectDraw = some id := by
  obtain ⟨x, hmem, hxid⟩ := List.mem_filterMap.mp hid
  have hallowed := hx x hmem
  cases x with
  | insertProject row =>
    obtain rfl := Option.some.inj hxid
    exact hallowed.2
  | insertTask row => cases hxid
  | updateProject id fields n => cases hxid
  | updateTasks ids fields n => cases hxid

/-! ### The tasks of one project -/

/-- Each of these tasks of the project was there before, and active if it is active now. -/
def Below (projectId : UUID) (rows' rows : List Task) : Prop :=
  ∀ t' ∈ rows', t'.projectId = projectId →
    ∃ t ∈ rows, t.id = t'.id ∧ t.projectId = projectId ∧ (t'.deletedAt = none → t.deletedAt = none)

variable {projectId : UUID} {a b c : List Task}

theorem Below.refl : Below projectId a a := fun t ht hp => ⟨t, ht, rfl, hp, fun h => h⟩

theorem Below.trans (hab : Below projectId a b) (hbc : Below projectId b c) :
    Below projectId a c := by
  intro t ht hp
  obtain ⟨s, hs, hid, hsp, hd⟩ := hab t ht hp
  obtain ⟨q, hq, hqid, hqp, hqd⟩ := hbc s hs hsp
  exact ⟨q, hq, hqid.trans hid, hqp, fun h => hqd (hd h)⟩

/-- An allowed write adds a task to a project only in the phase that says so. -/
theorem below_write (hx : x.allowed r φ) (hφ : φ ≠ .inserted projectId) :
    Below projectId (x.onTasks a) a := by
  intro t ht hp
  cases x with
  | insertProject row => exact ⟨t, ht, rfl, hp, fun h => h⟩
  | updateProject id fields n => exact ⟨t, ht, rfl, hp, fun h => h⟩
  | insertTask row =>
    rcases List.mem_append.mp ht with ht | ht
    · exact ⟨t, ht, rfl, hp, fun h => h⟩
    · obtain rfl := List.mem_singleton.mp ht
      exact absurd (hp ▸ hx) hφ
  | updateTasks ids fields n =>
    obtain ⟨s, hs, rfl⟩ := List.mem_map.mp ht
    by_cases hid : s.id ∈ ids
    · rw [if_pos hid] at hp ⊢
      obtain ⟨hproject, hdeleted⟩ := Task.setattrs_keep hx s
      exact ⟨s, hs, (Task.setattrs_id s fields).symm, hproject.symm.trans hp, hdeleted⟩
    · rw [if_neg hid] at hp ⊢
      exact ⟨s, hs, rfl, hp, fun h => h⟩

theorem below_writes (hx : ∀ x ∈ writes, x.allowed r φ) (hφ : φ ≠ .inserted projectId) :
    Below projectId (writes.foldl Write.onTasks a) a := by
  induction writes generalizing a with
  | nil => exact Below.refl
  | cons x xs ih =>
    exact (ih fun y hy => hx y (List.mem_cons_of_mem _ hy)).trans
      (below_write (hx x List.mem_cons_self) hφ)

/-- The session of another request sees no more of a project than before. -/
theorem Below.write (h : Below projectId a b) (hx : x.allowed r φ) :
    Below projectId (x.onTasks a) (x.onTasks b) := by
  intro t ht hp
  cases x with
  | insertProject row => exact h t ht hp
  | updateProject id fields n => exact h t ht hp
  | insertTask row =>
    rcases List.mem_append.mp ht with ht | ht
    · obtain ⟨s, hs, hrest⟩ := h t ht hp
      exact ⟨s, List.mem_append_left _ hs, hrest⟩
    · exact ⟨t, List.mem_append_right _ ht, rfl, hp, fun h => h⟩
  | updateTasks ids fields n =>
    obtain ⟨t₀, ht₀, rfl⟩ := List.mem_map.mp ht
    by_cases hid : t₀.id ∈ ids
    · rw [if_pos hid] at hp ⊢
      obtain ⟨hproject, -⟩ := Task.setattrs_keep hx t₀
      obtain ⟨s, hs, hsid, hsp, hsd⟩ := h t₀ ht₀ (hproject.symm.trans hp)
      refine ⟨_, List.mem_map.mpr ⟨s, hs, rfl⟩, ?_⟩
      rw [if_pos (hsid ▸ hid)]
      refine ⟨?_, ?_, ?_⟩
      · simpa using hsid
      · exact (Task.setattrs_keep hx s).1.trans hsp
      · exact Task.setattrs_deletedAt hsd fields
    · rw [if_neg hid] at hp ⊢
      obtain ⟨s, hs, hsid, hrest⟩ := h t₀ ht₀ hp
      refine ⟨s, List.mem_map.mpr ⟨s, hs, ?_⟩, hsid, hrest⟩
      rw [if_neg (hsid ▸ hid)]

theorem Below.foldl (h : Below projectId a b) (hx : ∀ x ∈ writes, x.allowed r φ) :
    Below projectId (writes.foldl Write.onTasks a) (writes.foldl Write.onTasks b) := by
  induction writes generalizing a b with
  | nil => exact h
  | cons x xs ih =>
    exact ih (h.write (hx x List.mem_cons_self)) fun y hy => hx y (List.mem_cons_of_mem _ hy)

end Writes

/-! ## The state of one session -/

/-- What holds of the session of the request `r` in phase `φ`. -/
structure SessionOk (r : Request) (φ : Phase) (l : Session) (w : World) : Prop where
  writes : ∀ x ∈ l.written, x.allowed r φ
  dirty : ∀ x ∈ l.dirty, x.allowed φ
  keyed : Keyed Project.id (l.projects w)
  clean : φ = .start ∨ (∃ P, φ = .seen P ∨ φ = .found P) → l.written = [] ∧ l.dirty = []
  /-- The project of a task under way has not been deleted. -/
  live : ∀ P, φ = .seen P ∨ φ = .inserted P →
    r.parent = some P ∧ ∀ p ∈ w.projects, p.id = P → p.deletedAt = none
  deletes : ∀ P, φ = .found P ∨ φ = .cascaded P → r.deletes = some P
  /-- The session sees no active task under the project it deletes. -/
  covered : ∀ P, φ = .cascaded P →
    l.written ≠ [] ∧ ∀ t ∈ l.tasks w, t.projectId = P → t.deletedAt ≠ none
  inserting : ∀ P, φ = .inserted P → l.written ≠ []

section Sessions
variable {env : Env} {r : Request} {φ φ' : Phase} {l l' : Session} {w : World} {c : Cmd}

/-- A session that has the same writes and assignments is as good. -/
theorem SessionOk.same (h : SessionOk r φ l w) (hw : l'.written = l.written)
    (hd : l'.dirty = l.dirty) : SessionOk r φ l' w where
  writes := hw ▸ h.writes
  dirty := hd ▸ h.dirty
  keyed := by
    have hkeyed := h.keyed
    unfold Session.projects at hkeyed ⊢
    rwa [hw]
  clean hφ := by rw [hw, hd]; exact h.clean hφ
  live := h.live
  deletes := h.deletes
  covered P hP := by
    have hcovered := h.covered P hP
    unfold Session.tasks at hcovered ⊢
    rwa [hw]
  inserting := hw ▸ h.inserting

/-- What a flush adds to the writes of the session. -/
structure Flushed (r : Request) (φ : Phase) (l l' : Session) (ys : List Write) : Prop where
  written : l'.written = l.written ++ ys
  dirty : l'.dirty = l.dirty
  allowed : ∀ y ∈ ys, y.allowed r φ ∧ y.isUpdate

theorem flushOne_flushed {x : Dirty} (hx : x.allowed φ) (hl : l.flushOne w x = some l') :
    ∃ ys, Flushed r φ l l' ys := by
  cases x with
  | project loaded fields =>
    simp only [Session.flushOne] at hl
    by_cases hnil : (fields.filter fun a => decide (loaded.setattr a ≠ loaded)) = []
    · rw [if_pos hnil] at hl
      obtain rfl := Option.some.inj hl
      exact ⟨[], by simp, rfl, by simp⟩
    · rw [if_neg hnil] at hl
      split at hl
      · obtain rfl := Option.some.inj hl
        refine ⟨_, rfl, rfl, ?_⟩
        intro y hy
        obtain rfl := List.mem_singleton.mp hy
        refine ⟨?_, trivial⟩
        rcases hx with hfields | ⟨hφ, n, rfl⟩
        · exact .inl fun a ha => hfields a (List.mem_of_mem_filter ha)
        · refine .inr ⟨hφ, n, ?_⟩
          by_cases hset : loaded.setattr (.deletedAt (some n)) = loaded
          · simp [hset] at hnil
          · simp [hset]
      · cases hl
  | task loaded fields =>
    simp only [Session.flushOne] at hl
    by_cases hnil : (fields.filter fun a => decide (loaded.setattr a ≠ loaded)) = []
    · rw [if_pos hnil] at hl
      obtain rfl := Option.some.inj hl
      exact ⟨[], by simp, rfl, by simp⟩
    · rw [if_neg hnil] at hl
      split at hl
      · obtain rfl := Option.some.inj hl
        refine ⟨_, rfl, rfl, ?_⟩
        intro y hy
        obtain rfl := List.mem_singleton.mp hy
        exact ⟨fun a ha => hx a (List.mem_of_mem_filter ha), trivial⟩
      · cases hl

theorem foldlM_flushed {dirty : List Dirty} (hx : ∀ x ∈ dirty, x.allowed φ)
    (hl : dirty.foldlM (Session.flushOne w) l = some l') : ∃ ys, Flushed r φ l l' ys := by
  revert hx
  refine foldlM_induction (P := fun dirty l l' => (∀ x ∈ dirty, Dirty.allowed φ x) →
    ∃ ys, Flushed r φ l l' ys) ?_ ?_ hl
  · exact fun l _ => ⟨[], by simp, rfl, by simp⟩
  · intro x xs l l₁ l' hl₁ hrest hx
    obtain ⟨ys, hys⟩ := flushOne_flushed (r := r) (hx x List.mem_cons_self) hl₁
    obtain ⟨zs, hzs⟩ := hrest fun y hy => hx y (List.mem_cons_of_mem _ hy)
    refine ⟨ys ++ zs, ?_, hzs.dirty.trans hys.dirty, ?_⟩
    · rw [hzs.written, hys.written, List.append_assoc]
    · intro y hy
      rcases List.mem_append.mp hy with hy | hy
      · exact hys.allowed y hy
      · exact hzs.allowed y hy

theorem insertedIds_update {ys : List Write} (hys : ∀ y ∈ ys, y.isUpdate) : insertedIds ys = [] := by
  rw [insertedIds, List.filterMap_eq_nil_iff]
  intro y hy
  have hup := hys y hy
  cases y with
  | insertProject row => cases hup
  | insertTask row => cases hup
  | updateProject id fields n => rfl
  | updateTasks ids fields n => rfl

theorem SessionOk.flush (h : SessionOk r φ l w) (hφ : φ.ends) (hl : l.flush w = some l') :
    SessionOk r φ l' w ∧ l'.dirty = [] := by
  obtain ⟨ys, hys⟩ := foldlM_flushed (r := r) h.dirty hl
  have hwritten : l'.written = l.written ++ ys := hys.written
  have hdirty : l'.dirty = [] := hys.dirty
  refine ⟨?_, hdirty⟩
  have hallowed : ∀ y ∈ ys, y.allowed r φ := fun y hy => (hys.allowed y hy).1
  constructor
  · intro x hx
    rw [hwritten] at hx
    rcases List.mem_append.mp hx with hx | hx
    · exact h.writes x hx
    · exact hallowed x hx
  · rw [hdirty]
    exact List.forall_mem_nil _
  · have hkeyed := h.keyed
    unfold Keyed Session.projects at hkeyed ⊢
    rw [hwritten, List.foldl_append, ids_after,
      insertedIds_update fun y hy => (hys.allowed y hy).2, List.append_nil]
    exact hkeyed
  · rintro (rfl | ⟨P, rfl | rfl⟩)
    · obtain ⟨hw, hd⟩ := h.clean (.inl rfl)
      have hnone : l' = l.begin w := by
        rw [flush_clean l w hd] at hl
        exact (Option.some.inj hl).symm
      rw [hnone]
      exact ⟨hw, hd⟩
    · cases hφ
    · cases hφ
  · exact h.live
  · exact h.deletes
  · intro P hP
    obtain ⟨hne, hcovered⟩ := h.covered P hP
    refine ⟨by simp [hwritten, hne], ?_⟩
    have hbelow : Below P (l'.tasks w) (l.tasks w) := by
      unfold Session.tasks
      rw [hwritten, List.foldl_append]
      exact below_writes hallowed (by rw [hP]; simp)
    intro t ht htP hnone
    obtain ⟨s, hs, -, hsP, hsd⟩ := hbelow t ht htP
    exact hcovered s hs hsP (hsd hnone)
  · intro P hP
    simp [hwritten, h.inserting P hP]

theorem Write.allowed_of_quiet {x : Write} (h : x.allowed r φ) (hφ : φ = .start ∨ φ = .idle) :
    x.allowed r φ' := by
  obtain rfl | rfl := hφ
  all_goals
    cases x with
    | insertProject row => exact h
    | insertTask row => cases h
    | updateProject id fields n =>
      rcases h with h | ⟨h, -⟩
      · exact .inl h
      · cases h
    | updateTasks ids fields n => exact h

theorem Dirty.allowed_of_quiet {x : Dirty} (h : x.allowed φ) (hφ : φ = .start ∨ φ = .idle) :
    x.allowed φ' := by
  obtain rfl | rfl := hφ
  all_goals
    cases x with
    | project loaded fields =>
      rcases h with h | ⟨h, -⟩
      · exact .inl h
      · cases h
    | task loaded fields => exact h

/-- In an idle phase only the writes and the primary key matter. -/
theorem SessionOk.idle (hwrites : ∀ x ∈ l.written, x.allowed r .idle)
    (hdirty : ∀ x ∈ l.dirty, x.allowed .idle) (hkeyed : Keyed Project.id (l.projects w)) :
    SessionOk r .idle l w where
  writes := hwrites
  dirty := hdirty
  keyed := hkeyed
  clean := by simp
  live := by simp
  deletes := by simp
  covered := by simp
  inserting := by simp

/-- A session that has written nothing. -/
theorem SessionOk.fresh (hw : l.written = []) (hd : l.dirty = []) (hkeyed : Keyed Project.id w.projects)
    (hlive : ∀ P, φ = .seen P ∨ φ = .inserted P →
      r.parent = some P ∧ ∀ p ∈ w.projects, p.id = P → p.deletedAt = none)
    (hdeletes : ∀ P, φ = .found P ∨ φ = .cascaded P → r.deletes = some P)
    (hinserted : ∀ P, φ ≠ .inserted P) (hcascaded : ∀ P, φ ≠ .cascaded P) : SessionOk r φ l w where
  writes := by simp [hw]
  dirty := by simp [hd]
  keyed := by
    unfold Session.projects
    rwa [hw]
  clean _ := ⟨hw, hd⟩
  live := hlive
  deletes := hdeletes
  covered P hP := absurd hP (hcascaded P)
  inserting P hP := absurd hP (hinserted P)

theorem SessionOk.empty (hkeyed : Keyed Project.id w.projects) (hφ : φ = .start ∨ φ = .idle) :
    SessionOk r φ .empty w := by
  obtain rfl | rfl := hφ <;> exact .fresh rfl rfl hkeyed (by simp) (by simp) (by simp) (by simp)

theorem projects_of_clean (h : l.written = []) : l.projects w = w.projects := by
  unfold Session.projects
  rw [h]
  rfl

theorem SessionOk.quiet (h : SessionOk r φ l w) (hworld : Keyed Project.id w.projects)
    (hφ : φ = .start ∨ φ = .idle) (hc : c.quiet r) :
    SessionOk r .idle (exec env c (l, w)).2.1 w := by
  have hw : ∀ x ∈ l.written, x.allowed r .idle := fun x hx =>
    Write.allowed_of_quiet (h.writes x hx) hφ
  have hd : ∀ x ∈ l.dirty, x.allowed .idle := fun x hx =>
    Dirty.allowed_of_quiet (h.dirty x hx) hφ
  have hrest : SessionOk r .idle l w := .idle hw hd h.keyed
  have hbegin : SessionOk r .idle (l.begin w) w := hrest.same rfl rfl
  cases c with
  | selectProject id owner => exact hbegin
  | countProjects owner => exact hbegin
  | selectProjects owner ties offset limit =>
    simp only [exec]
    split
    · exact hbegin
    · exact hrest
  | insertProject id ownerId name description =>
    simp only [exec]
    split
    · rename_i haccepts
      refine .idle ?_ hd ?_
      · intro x hx
        rcases List.mem_append.mp hx with hx | hx
        · exact hw x hx
        · obtain rfl := List.mem_singleton.mp hx
          exact ⟨rfl, hc⟩
      · rw [projects_write, projects_begin]
        exact h.keyed.append (acceptsProject_fresh haccepts)
    · exact hbegin
  | refreshProject id =>
    simp only [exec]
    split <;> exact hbegin
  | assignProject loaded fields =>
    refine .idle hw ?_ h.keyed
    intro x hx
    rcases List.mem_append.mp hx with hx | hx
    · exact hd x hx
    · obtain rfl := List.mem_singleton.mp hx
      exact .inl hc
  | selectTask id owner => exact hbegin
  | countTasks owner filters =>
    simp only [exec]
    split
    · exact hbegin
    · exact hrest
  | selectTasks owner filters ties offset limit =>
    simp only [exec]
    split
    · exact hbegin
    · exact hrest
  | insertTask id projectId fields => cases hc
  | refreshTask id =>
    simp only [exec]
    split <;> exact hbegin
  | assignTask loaded fields =>
    refine .idle hw ?_ h.keyed
    intro x hx
    rcases List.mem_append.mp hx with hx | hx
    · exact hd x hx
    · obtain rfl := List.mem_singleton.mp hx
      exact hc
  | softDeleteByProject projectId => cases hc
  | flush =>
    simp only [exec]
    split
    · rename_i l' hl
      exact (hrest.flush trivial hl).1
    · exact hrest
  | datetimeNow => exact hrest
  | commit => cases hc
  | rollback => exact .empty hworld (.inr rfl)

/-- Every move but a commit leaves the tables alone. -/
theorem exec_world (hc : c ≠ .commit) : (exec env c (l, w)).2.2 = w := by
  cases c with
  | commit => exact absurd rfl hc
  | selectProjects | insertProject | refreshProject | countTasks | selectTasks | insertTask
  | refreshTask | flush =>
    simp only [exec]
    split <;> rfl
  | _ => rfl

/-- The stamp of the cascade leaves the session no active task of the project. -/
theorem covered_cascade {P : UUID} (stamp n : Nat) :
    ∀ t ∈ Write.onTasks (l.tasks w) (.updateTasks
        (((active (l.tasks w)).filter fun t => t.projectId == P).map (·.id))
        [.deletedAt (some n)] stamp),
      t.projectId = P → t.deletedAt ≠ none := by
  intro t ht htP hnone
  obtain ⟨s, hs, rfl⟩ := List.mem_map.mp ht
  by_cases hid : s.id ∈ ((active (l.tasks w)).filter fun t => t.projectId == P).map (·.id)
  · rw [if_pos hid] at hnone
    cases hnone
  · rw [if_neg hid] at htP hnone
    refine hid (List.mem_map.mpr ⟨s, List.mem_filter.mpr ⟨mem_active.mpr ⟨hs, hnone⟩, ?_⟩, rfl⟩)
    simpa using htP

theorem SessionOk.move (h : SessionOk r φ l w) (hworld : Keyed Project.id w.projects)
    (hm : Move r φ c (l, w) φ') (hc : c ≠ .commit) :
    SessionOk r φ' (exec env c (l, w)).2.1 w := by
  cases hm with
  | quiet hφ hquiet => exact h.quiet hworld hφ hquiet
  | @see payload uuid4 owner _ _ p hr hp =>
    obtain ⟨hw, hd⟩ := h.clean (.inl rfl)
    refine .fresh hw hd hworld ?_ (by simp) (by simp) (by simp)
    rintro P (hP | hP)
    · cases hP
      refine ⟨by rw [hr]; rfl, fun q hq hid => ?_⟩
      rw [projects_of_clean hw] at hp
      obtain ⟨hmem, hactive, -⟩ := mem_ownedProjects.mp (List.mem_of_find?_eq_some hp)
      have hpid : p.id = payload.projectId := by simpa using List.find?_some hp
      rwa [hworld.eq_of_key hq hmem (hid.trans hpid.symm)]
    · cases hP
  | @insert payload uuid4 _ _ hrow =>
    obtain ⟨hw, hd⟩ := h.clean (.inr ⟨_, .inl rfl⟩)
    simp only [exec, hrow, if_true]
    have hwritten : ((l.begin w).write (.insertTask
        (newTask (l.clock w) uuid4 payload.projectId payload.modelDump))).written =
        [.insertTask (newTask (l.clock w) uuid4 payload.projectId payload.modelDump)] := by
      simp [Session.write, Session.begin, hw]
    constructor
    · intro x hx
      rw [hwritten] at hx
      obtain rfl := List.mem_singleton.mp hx
      exact congrArg Phase.inserted (newTask_keeps _ _ _ payload).1.symm
    · change ∀ x ∈ l.dirty, _
      simp [hd]
    · rw [projects_write]
      exact h.keyed
    · simp
    · rintro P (hP | hP)
      · cases hP
      · cases hP
        exact h.live _ (.inl rfl)
    · simp
    · simp
    · simp [hwritten]
  | insertRefused hrow =>
    simp only [exec, hrow]
    obtain ⟨hw, hd⟩ := h.clean (.inr ⟨_, .inl rfl⟩)
    exact .fresh hw hd hworld (by simp) (by simp) (by simp) (by simp)
  | reread =>
    simp only [exec]
    split <;> exact h.same rfl rfl
  | find hr hp =>
    obtain ⟨hw, hd⟩ := h.clean (.inl rfl)
    refine .fresh hw hd hworld (by simp) ?_ (by simp) (by simp)
    rintro P (hP | hP)
    · cases hP
      rw [hr]
      rfl
    · cases hP
  | @cascade P _ =>
    obtain ⟨hw, hd⟩ := h.clean (.inr ⟨_, .inr rfl⟩)
    constructor
    · intro x hx
      rcases List.mem_append.mp hx with hx | hx
      · simp [Session.begin, hw] at hx
      · obtain rfl := List.mem_singleton.mp hx
        simp [Write.allowed, TaskAttr.keeps]
    · change ∀ x ∈ l.dirty, _
      simp [hd]
    · simp only [exec]
      rw [projects_write]
      exact h.keyed
    · simp
    · simp
    · rintro Q (hQ | hQ)
      · cases hQ
      · cases hQ
        exact h.deletes _ (.inl rfl)
    · intro Q hQ
      cases hQ
      refine ⟨by simp [exec, Session.write], ?_⟩
      simp only [exec]
      rw [tasks_write]
      exact covered_cascade _ _
    · simp
  | clock => exact h
  | @mark p n _ =>
    refine ⟨h.writes, ?_, h.keyed, by simp, h.live, h.deletes, h.covered, h.inserting⟩
    intro x hx
    rcases List.mem_append.mp hx with hx | hx
    · exact h.dirty x hx
    · obtain rfl := List.mem_singleton.mp hx
      exact .inr ⟨rfl, n, rfl⟩
  | flush =>
    simp only [exec]
    split
    · rename_i l' hl
      exact (h.flush trivial hl).1
    · exact h
  | commit hφ hl => exact absurd rfl hc
  | refuse hφ hl => exact absurd rfl hc
  | rollback hφ => exact .empty hworld (.inr rfl)

end Sessions

end TaskMgtApp.Work
