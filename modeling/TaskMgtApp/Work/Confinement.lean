import TaskMgtApp.Work.Ownership

/-!
# Sessions side by side keep to their rows

In every order of the statements of any requests, what a session holds are writes of
its own user, and a commit is a chain of effects of requests of that user
(`OwnSession.chain`). The constraints of the tables, which each effect
keeps, therefore hold in every state.
-/
namespace TaskMgtApp.Work

open TaskMgtApp.Common
open TaskMgtApp.Lib.Interleaving TaskMgtApp.Lib.Rows

/-! ## What a session holds -/

/-- Phases in which nothing is assigned or written. -/
def OwnPhase.clean : OwnPhase → Bool
  | .created | .cascaded _ | .markingProject _ _ | .changed => false
  | _ => true

/-- The row that the request draws an id for is there, and belongs to `u`. -/
structure Request.Stored (r : Request) (u : UUID) (w : World) : Prop where
  project : ∀ id, r.projectDraw = some id → w.owns u id
  task : ∀ id, r.taskDraw = some id → w.ownsTask u id

/-- What holds of the session of the request `r` of `u`. -/
structure OwnSession (u : UUID) (r : Request) (φ : OwnPhase) (l : Session) (w : World) : Prop where
  writes : ∀ x ∈ l.written, x.Own w u r
  dirty : ∀ y ∈ l.dirty, y.Own w u
  clean : φ.clean → l.written = [] ∧ l.dirty = []
  created : φ = .created → (∃ x, l.written = [x] ∧ ¬ x.isUpdate) ∧ l.dirty = []
  updates : φ ≠ .created → ∀ x ∈ l.written, x.isUpdate
  project : ∀ p, φ.project? = some p → w.owns u p.id
  task : ∀ t, φ.task? = some t → w.ownsTask u t.id
  fresh : φ ≠ .committed → r.FreshIn w
  stored : φ = .committed → r.Stored u w

/-- A request draws the id of one row at most. -/
theorem Request.taskDraw_of_projectDraw (r : Request) {id : UUID} (h : r.projectDraw = some id) :
    r.taskDraw = none := by
  cases r <;> first | rfl | cases h

theorem Request.projectDraw_of_taskDraw (r : Request) {id : UUID} (h : r.taskDraw = some id) :
    r.projectDraw = none := by
  cases r <;> first | rfl | cases h

section Sessions
variable {env : Env} {u : UUID} {r r' : Request} {φ φ' : OwnPhase} {l l' : Session} {w w' : World}
  {c : Cmd}

theorem Request.Stored.grows (h : r.Stored u w) (hgrows : w.Grows w') : r.Stored u w' :=
  ⟨fun id hid => hgrows.owns (h.project id hid), fun id hid => hgrows.ownsTask (h.task id hid)⟩

/-- A session that has only read. -/
theorem OwnSession.reading (hφ : φ.clean) (hwritten : l.written = []) (hdirty : l.dirty = [])
    (hproject : ∀ p, φ.project? = some p → w.owns u p.id)
    (htask : ∀ t, φ.task? = some t → w.ownsTask u t.id)
    (hfresh : φ ≠ .committed → r.FreshIn w) (hstored : φ = .committed → r.Stored u w) :
    OwnSession u r φ l w where
  writes := by simp [hwritten]
  dirty := by simp [hdirty]
  clean _ := ⟨hwritten, hdirty⟩
  created h := by
    subst h
    cases hφ
  updates _ := by simp [hwritten]
  project := hproject
  task := htask
  fresh := hfresh
  stored := hstored

/-- A session that is not about a row. -/
theorem OwnSession.idle (hφ : φ = .start ∨ φ = .listed ∨ φ = .rolledBack) (hwritten : l.written = [])
    (hdirty : l.dirty = []) (hfresh : r.FreshIn w) : OwnSession u r φ l w := by
  obtain rfl | rfl | rfl := hφ <;> exact .reading rfl hwritten hdirty (fun p h => by cases h)
    (fun t h => by cases h) (fun _ => hfresh) (fun h => by cases h)

/-- A session with one new row. -/
theorem OwnSession.insert {x : Write} (hwritten : l.written = [x]) (hdirty : l.dirty = [])
    (hx : x.Own w u r) (hinsert : ¬ x.isUpdate) (hfresh : r.FreshIn w) :
    OwnSession u r .created l w where
  writes := by
    rw [hwritten]
    exact List.forall_mem_singleton.mpr hx
  dirty := by simp [hdirty]
  clean h := by cases h
  created _ := ⟨⟨x, hwritten, hinsert⟩, hdirty⟩
  updates h := absurd rfl h
  project p h := by cases h
  task t h := by cases h
  fresh _ := hfresh
  stored h := by cases h

/-- A session with rows that have been stamped or objects that have been assigned. -/
theorem OwnSession.changing (hφ : φ.isOpen = true ∧ φ ≠ .created ∧ φ.clean = false)
    (hupdates : ∀ x ∈ l.written, x.isUpdate)
    (hwrites : ∀ x ∈ l.written, x.Own w u r) (hdirty : ∀ y ∈ l.dirty, y.Own w u)
    (hproject : ∀ p, φ.project? = some p → w.owns u p.id)
    (htask : ∀ t, φ.task? = some t → w.ownsTask u t.id)
    (hfresh : r.FreshIn w) : OwnSession u r φ l w where
  writes := hwrites
  dirty := hdirty
  clean h := by
    rw [hφ.2.2] at h
    cases h
  created h := absurd h hφ.2.1
  updates _ := hupdates
  project := hproject
  task := htask
  fresh _ := hfresh
  stored h := by
    subst h
    cases hφ.1

/-- Only what is written and assigned matters of a session. -/
theorem OwnSession.same (h : OwnSession u r φ l w) (hw : l'.written = l.written)
    (hd : l'.dirty = l.dirty) : OwnSession u r φ l' w where
  writes := hw ▸ h.writes
  dirty := hd ▸ h.dirty
  clean := by rw [hw, hd]; exact h.clean
  created := by rw [hw, hd]; exact h.created
  updates := hw ▸ h.updates
  project := h.project
  task := h.task
  fresh := h.fresh
  stored := h.stored

/-- The rows of others may come and change. -/
theorem OwnSession.grows (h : OwnSession u r φ l w) (hgrows : w.Grows w')
    (hfresh : r.FreshIn w → r.FreshIn w') : OwnSession u r φ l w' where
  writes x hx := (h.writes x hx).grows hgrows
  dirty y hy := (h.dirty y hy).grows hgrows
  clean := h.clean
  created := h.created
  updates := h.updates
  project p hp := hgrows.owns (h.project p hp)
  task t ht := hgrows.ownsTask (h.task t ht)
  fresh hφ := hfresh (h.fresh hφ)
  stored hφ := (h.stored hφ).grows hgrows

theorem tasks_of_clean (h : l.written = []) : l.tasks w = w.tasks := by
  rw [Session.tasks, h]
  rfl

/-- The first write of a session. -/
theorem written_of_clean (h : l.written = []) (x : Write) : ((l.begin w).write x).written = [x] := by
  change l.written ++ [x] = [x]
  rw [h, List.nil_append]

theorem flushOne_own {y : Dirty} (hy : y.Own w u) (hl : l.flushOne w y = some l') :
    l' = l ∨ ∃ x : Write, l' = l.write x ∧ x.Own w u r ∧ x.isUpdate := by
  cases y with
  | project loaded fields =>
    simp only [Session.flushOne] at hl
    split at hl
    · exact .inl (Option.some.inj hl).symm
    · split at hl
      · rename_i hall
        refine .inr ⟨_, (Option.some.inj hl).symm, ⟨hy.1, fun a ha => ⟨?_, ?_⟩⟩, trivial⟩
        · exact List.all_eq_true.mp hall a ha
        · exact hy.2 a (List.mem_of_mem_filter ha)
      · cases hl
  | task loaded fields =>
    simp only [Session.flushOne] at hl
    split at hl
    · exact .inl (Option.some.inj hl).symm
    · split at hl
      · rename_i hall
        have hkeeps : ∀ a ∈ fields.filter fun a => loaded.setattr a ≠ loaded, a.keeps :=
          fun a ha => hy.2 a (List.mem_of_mem_filter ha)
        refine .inr ⟨_, (Option.some.inj hl).symm, ⟨?_, fun a ha => ⟨?_, hkeeps a ha⟩⟩, trivial⟩
        · exact List.forall_mem_singleton.mpr hy.1
        · exact TaskAttr.storable_of_keeps (hkeeps a ha) (List.all_eq_true.mp hall a ha)
      · cases hl

theorem foldlM_own {dirty : List Dirty} (hdirty : ∀ y ∈ dirty, y.Own w u)
    (hl : dirty.foldlM (Session.flushOne w) l = some l') :
    ∃ xs, l'.written = l.written ++ xs ∧ l'.dirty = l.dirty ∧
      ∀ x ∈ xs, x.Own w u r ∧ x.isUpdate := by
  revert hdirty
  refine foldlM_induction (P := fun dirty l l' => (∀ y ∈ dirty, Dirty.Own w u y) →
    ∃ xs, l'.written = l.written ++ xs ∧ l'.dirty = l.dirty ∧
      ∀ x ∈ xs, Write.Own w u r x ∧ x.isUpdate) ?_ ?_ hl
  · exact fun l _ => ⟨[], (List.append_nil _).symm, rfl, List.forall_mem_nil _⟩
  · intro y ys l l₁ l' hl₁ hrest hdirty
    obtain ⟨hy, hys⟩ := List.forall_mem_cons.mp hdirty
    obtain ⟨xs, hwritten, hkept, hxs⟩ := hrest hys
    obtain rfl | ⟨x, rfl, hx⟩ := flushOne_own (r := r) hy hl₁
    · exact ⟨xs, hwritten, hkept, hxs⟩
    · refine ⟨x :: xs, ?_, hkept, List.forall_mem_cons.mpr ⟨hx, hxs⟩⟩
      rw [hwritten, Session.write, List.append_assoc]
      rfl

/-- A flush adds updates of rows of `u`. -/
theorem OwnSession.flush (h : OwnSession u r φ l w) (hl : l.flush w = some l') :
    OwnSession u r φ l' w ∧ l'.dirty = [] := by
  by_cases hd : l.dirty = []
  · rw [flush_clean l w hd] at hl
    obtain rfl := Option.some.inj hl
    exact ⟨h.same rfl rfl, hd⟩
  · obtain ⟨xs, hwritten, hdirty, hxs⟩ := foldlM_own (r := r) h.dirty hl
    change l'.written = l.written ++ xs at hwritten
    change l'.dirty = [] at hdirty
    have hcreated : φ ≠ .created := fun hφ => hd (h.created hφ).2
    refine ⟨?_, hdirty⟩
    exact {
      writes := by
        rw [hwritten]
        exact List.forall_mem_append.mpr ⟨h.writes, fun x hx => (hxs x hx).1⟩
      dirty := by simp [hdirty]
      clean := fun hφ => absurd (h.clean hφ).2 hd
      created := fun hφ => absurd hφ hcreated
      updates := fun _ => by
        rw [hwritten]
        exact List.forall_mem_append.mpr ⟨h.updates hcreated, fun x hx => (hxs x hx).2⟩
      project := h.project
      task := h.task
      fresh := h.fresh
      stored := h.stored }

theorem OwnMove.isOpen (hm : OwnMove u r φ c (l, w) φ') : φ.isOpen := by
  cases hm with
  | list hφ => obtain rfl | rfl := hφ <;> rfl
  | flush hφ | commit hφ | refuse hφ | rollback hφ => exact hφ
  | _ => rfl

theorem OwnSession.fresh_of_open (h : OwnSession u r φ l w) (hφ : φ.isOpen) : r.FreshIn w :=
  h.fresh (by rintro rfl; cases hφ)

theorem OwnMove.of_commit (hm : OwnMove u r φ .commit (l, w) φ') :
    (∃ l', l.flush w = some l' ∧ r.MayCommit φ ∧ φ' = .committed) ∨
      (l.flush w = none ∧ φ' = φ) := by
  cases hm with
  | list hφ hc => cases hc
  | commit hφ hr hl => exact .inl ⟨_, hl, hr, rfl⟩
  | refuse hφ hl => exact .inr ⟨hl, rfl⟩

/-- An object of the session gets new attributes. -/
theorem OwnSession.assigned (h : OwnSession u r φ l w) (hcreated : φ ≠ .created)
    {y : Dirty} (hy : y.Own w u) (hfresh : r.FreshIn w) :
    OwnSession u r .changed { l with dirty := l.dirty ++ [y] } w :=
  .changing ⟨rfl, OwnPhase.noConfusion, rfl⟩ (h.updates hcreated) h.writes
    (List.forall_mem_append.mpr ⟨h.dirty, List.forall_mem_singleton.mpr hy⟩)
    (fun p hp => by cases hp) (fun t ht => by cases ht) hfresh

/-- A statement, but for the commit, keeps what holds of its session. -/
theorem OwnSession.move (env : Env) (h : OwnSession u r φ l w) (hm : OwnMove u r φ c (l, w) φ')
    (hc : c ≠ .commit) : OwnSession u r φ' (exec env c (l, w)).2.1 w := by
  have hfresh := h.fresh_of_open hm.isOpen
  cases hm with
  | list hφ hc =>
    obtain ⟨hw, hd⟩ : l.written = [] ∧ l.dirty = [] := by obtain rfl | rfl := hφ <;> exact h.clean rfl
    cases hc with
    | countProjects => exact .idle (.inr (.inl rfl)) hw hd hfresh
    | selectProjects | countTasks | selectTasks =>
      simp only [exec]
      split <;> exact .idle (.inr (.inl rfl)) hw hd hfresh
  | missProject | missTask =>
    obtain ⟨hw, hd⟩ := h.clean rfl
    exact .idle (.inr (.inl rfl)) hw hd hfresh
  | @findProject id p l w hp =>
    obtain ⟨hw, hd⟩ := h.clean rfl
    rw [projects_of_clean hw] at hp
    refine .reading rfl hw hd (fun q hq => ?_) (fun t ht => by cases ht) (fun _ => hfresh)
      (fun h => by cases h)
    obtain rfl := Option.some.inj hq
    exact owns_of_mem (List.mem_of_find?_eq_some hp)
  | @findTask id t l w ht =>
    obtain ⟨hw, hd⟩ := h.clean rfl
    rw [projects_of_clean hw, tasks_of_clean hw] at ht
    refine .reading rfl hw hd (fun q hq => by cases hq) (fun s hs => ?_) (fun _ => hfresh)
      (fun h => by cases h)
    obtain rfl := Option.some.inj hs
    exact ownsTask_of_mem (List.mem_of_find?_eq_some ht)
  | @insertProject id name description l w hdraw haccepts =>
    obtain ⟨hw, hd⟩ := h.clean rfl
    have hrow := (Bool.and_eq_true _ _ ▸ haccepts).2
    simp only [exec, haccepts, if_true]
    have hx : Write.Own w u r (.insertProject (newProject (l.clock w) id u name description)) :=
      ⟨hrow, rfl, rfl, hdraw⟩
    exact .insert (written_of_clean hw _) hd hx (fun hup => hup) hfresh
  | @insertTask p id fields l w hdraw hfields haccepts =>
    obtain ⟨hw, hd⟩ := h.clean rfl
    have hrow := (Bool.and_eq_true _ _ ▸ haccepts).2
    rw [projects_of_clean hw] at hrow
    obtain ⟨hparent, hactive⟩ := Task.setattrs_keeps
      ⟨id, p.id, none, none, some .todo, some .medium, none, l.clock w, l.clock w, none⟩ hfields
    simp only [exec, haccepts, if_true]
    have hx : Write.Own w u r (.insertTask (newTask (l.clock w) id p.id fields)) := by
      refine ⟨hrow, hactive, ?_, ?_⟩
      · rw [newTask, hparent]
        exact h.project p rfl
      · rw [newTask_id]
        exact hdraw
    exact .insert (written_of_clean hw _) hd hx (fun hup => hup) hfresh
  | refuseProject hdraw haccepts =>
    obtain ⟨hw, hd⟩ := h.clean rfl
    simp only [exec, haccepts]
    exact .idle (.inr (.inl rfl)) hw hd hfresh
  | refuseTask hdraw hfields haccepts =>
    obtain ⟨hw, hd⟩ := h.clean rfl
    simp only [exec, haccepts]
    exact .idle (.inr (.inl rfl)) hw hd hfresh
  | rereadProject | rereadTask =>
    simp only [exec]
    split <;> exact h.same rfl rfl
  | @assignProject p fields s hfields =>
    have hy : Dirty.Own w u (.project p fields) :=
      ⟨h.project p rfl, fun a ha => ProjectAttr.keeps_of_updatable (hfields a ha)⟩
    exact h.assigned OwnPhase.noConfusion hy hfresh
  | @markProject p n s =>
    have hy : Dirty.Own w u (.project p [.deletedAt (some n)]) :=
      ⟨h.project p rfl, List.forall_mem_singleton.mpr rfl⟩
    exact h.assigned OwnPhase.noConfusion hy hfresh
  | @assignTask t fields s hfields =>
    have hy : Dirty.Own w u (.task t fields) :=
      ⟨h.task t rfl, fun a ha => updatable_keeps (hfields a ha)⟩
    exact h.assigned OwnPhase.noConfusion hy hfresh
  | @markTask t n s =>
    have hy : Dirty.Own w u (.task t [.deletedAt (some n)]) :=
      ⟨h.task t rfl, List.forall_mem_singleton.mpr rfl⟩
    exact h.assigned OwnPhase.noConfusion hy hfresh
  | @cascade p s =>
    obtain ⟨hw, hd⟩ := h.clean rfl
    have hx : Write.Own w u r (.updateTasks
        (((active (l.tasks w)).filter fun t => t.projectId == p.id).map (·.id))
        [.deletedAt (some (l.clock w))] (l.clock w)) := by
      refine ⟨fun id hid => ?_, List.forall_mem_singleton.mpr ⟨rfl, rfl⟩⟩
      obtain ⟨t, ht, rfl⟩ := List.mem_map.mp hid
      obtain ⟨hactive, hproject⟩ := List.mem_filter.mp ht
      have hmem := (mem_active.mp hactive).1
      rw [tasks_of_clean hw] at hmem
      exact World.ownsTask_iff.mpr ⟨t, hmem, rfl, (beq_iff_eq.mp hproject) ▸ h.project p rfl⟩
    have hwritten := written_of_clean (w := w) hw (.updateTasks
      (((active (l.tasks w)).filter fun t => t.projectId == p.id).map (·.id))
      [.deletedAt (some (l.clock w))] (l.clock w))
    simp only [exec]
    refine .changing ⟨rfl, OwnPhase.noConfusion, rfl⟩ ?_ ?_ ?_ h.project h.task hfresh
    · rw [hwritten]
      exact List.forall_mem_singleton.mpr trivial
    · rw [hwritten]
      exact List.forall_mem_singleton.mpr hx
    · change ∀ y ∈ l.dirty, y.Own w u
      simp [hd]
  | clockProject =>
    exact .changing ⟨rfl, OwnPhase.noConfusion, rfl⟩ (h.updates OwnPhase.noConfusion) h.writes h.dirty
      h.project h.task hfresh
  | clockTask =>
    obtain ⟨hw, hd⟩ := h.clean rfl
    exact .reading rfl hw hd h.project h.task (fun _ => hfresh) (fun hφ => by cases hφ)
  | flush hφ =>
    simp only [exec]
    split
    · rename_i l' hl
      exact (h.flush hl).1
    · exact h
  | commit => exact absurd rfl hc
  | refuse => exact absurd rfl hc
  | rollback => exact .idle (.inr (.inr rfl)) rfl rfl hfresh

/-- A commit is a chain of effects of requests of `u`. -/
inductive OwnChain (u : UUID) (r : Request) : World → List Write → Prop
  | nil {w : World} : OwnChain u r w []
  | cons {w : World} {x : Write} {xs : List Write} (hvalid : w.Valid) (hx : x.Own w u r)
      (heffect : Effect w u r (w.write x)) (hxs : OwnChain u r (w.write x) xs) :
      OwnChain u r w (x :: xs)

theorem OwnSession.chain (h : OwnSession u r φ l w) (hφ : φ.isOpen) (hvalid : w.Valid) :
    OwnChain u r w l.written := by
  by_cases hcreated : φ = .created
  · obtain ⟨⟨x, hwritten, -⟩, -⟩ := h.created hcreated
    have hx : x.Own w u r := h.writes x (hwritten ▸ List.mem_singleton_self x)
    rw [hwritten]
    exact .cons hvalid hx (hx.effect hvalid (.inr (h.fresh_of_open hφ))) .nil
  · have hupdates := h.updates hcreated
    have hwrites := h.writes
    generalize l.written = xs at hupdates hwrites
    clear h hcreated
    induction xs generalizing w with
    | nil => exact .nil
    | cons x xs ih =>
      obtain ⟨hup, hups⟩ := List.forall_mem_cons.mp hupdates
      obtain ⟨hx, hxs⟩ := List.forall_mem_cons.mp hwrites
      have heffect := hx.effect hvalid (.inl hup)
      exact .cons hvalid hx heffect
        (ih (heffect.valid hvalid) hups fun y hy => (hxs y hy).grows heffect.grows)

/-- What each effect of a chain keeps, the chain keeps. -/
theorem OwnChain.induction {P : World → Prop} {xs : List Write} (h : OwnChain u r w xs)
    (hstep : ∀ v x, v.Valid → x.Own v u r → Effect v u r (v.write x) → P v → P (v.write x))
    (hP : P w) : P (xs.foldl World.write w) := by
  induction h with
  | nil => exact hP
  | cons hvalid hx heffect _ ih => exact ih (hstep _ _ hvalid hx heffect hP)

/-- What a request has drawn an id for is there after its commit. -/
theorem OwnSession.stored_after (h : OwnSession u r φ l w) (hφ : φ.isOpen) (hr : r.MayCommit φ)
    (hvalid : w.Valid) : r.Stored u (l.after w) := by
  obtain ⟨hproject, htask⟩ | hcreated := hr
  · exact ⟨fun id hid => by simp [hproject] at hid, fun id hid => by simp [htask] at hid⟩
  · obtain ⟨⟨x, hwritten, hinsert⟩, -⟩ := h.created hcreated
    have hx : x.Own w u r := h.writes x (hwritten ▸ List.mem_singleton_self x)
    have hgrows := (hx.effect hvalid (.inr (h.fresh_of_open hφ))).grows
    rw [after_eq_foldl, hwritten]
    cases x with
    | insertProject row =>
      obtain ⟨-, -, howner, hdraw⟩ := hx
      have hmem : row ∈ (w.write (.insertProject row)).projects :=
        List.mem_append_right _ (List.mem_singleton_self row)
      refine ⟨fun id hid => ?_, fun id hid => ?_⟩
      · obtain rfl := Option.some.inj (hdraw.symm.trans hid)
        exact World.owns_iff.mpr ⟨row, hmem, rfl, howner⟩
      · rw [r.taskDraw_of_projectDraw hdraw] at hid
        cases hid
    | insertTask row =>
      obtain ⟨-, -, howns, hdraw⟩ := hx
      have hmem : row ∈ (w.write (.insertTask row)).tasks :=
        List.mem_append_right _ (List.mem_singleton_self row)
      refine ⟨fun id hid => ?_, fun id hid => ?_⟩
      · rw [r.projectDraw_of_taskDraw hdraw] at hid
        cases hid
      · obtain rfl := Option.some.inj (hdraw.symm.trans hid)
        exact World.ownsTask_iff.mpr ⟨row, hmem, rfl, hgrows.owns howns⟩
    | updateProject | updateTasks => exact absurd trivial hinsert

/-- A statement changes the tables if it is a commit, by effects of its user. -/
theorem OwnSession.exec_induction {P : World → Prop} (env : Env) (h : OwnSession u r φ l w)
    (hvalid : w.Valid) (hm : OwnMove u r φ c (l, w) φ')
    (hstep : ∀ v x, v.Valid → x.Own v u r → Effect v u r (v.write x) → P v → P (v.write x))
    (hP : P w) : P (exec env c (l, w)).2.2 := by
  by_cases hc : c = .commit
  · subst hc
    cases hflush : l.flush w with
    | none =>
      simp only [Work.exec, hflush]
      exact hP
    | some l' =>
      simp only [Work.exec, hflush]
      change P (l'.after w)
      rw [after_eq_foldl]
      exact ((h.flush hflush).1.chain hm.isOpen hvalid).induction hstep hP
  · rw [exec_world hc]
    exact hP

/-- A statement keeps what holds of its session. -/
theorem OwnSession.exec (env : Env) (h : OwnSession u r φ l w) (hvalid : w.Valid)
    (hm : OwnMove u r φ c (l, w) φ') :
    OwnSession u r φ' (exec env c (l, w)).2.1 (exec env c (l, w)).2.2 := by
  by_cases hc : c = .commit
  · subst hc
    obtain ⟨l', hflush, hr, rfl⟩ | ⟨hflush, rfl⟩ := hm.of_commit
    · simp only [Work.exec, hflush]
      exact .reading rfl rfl rfl (fun p hp => by cases hp) (fun t ht => by cases ht)
        (fun hφ => absurd rfl hφ) fun _ => (h.flush hflush).1.stored_after hm.isOpen hr hvalid
    · simp only [Work.exec, hflush]
      exact h
  · rw [exec_world hc]
    exact h.move env hm hc

end Sessions

/-! ## Every order of the statements -/

/-- The draws of the requests are new, and tell the requests apart. -/
structure FreshRequests {ι : Type} (w : World) (requests : ι → UUID × Request) : Prop where
  fresh : ∀ i, (requests i).2.FreshIn w
  apart : ∀ i k, i ≠ k → (requests i).2.Apart (requests k).2

instance (r : Request) (w : World) : Decidable (r.FreshIn w) :=
  decidable_of_iff ((∀ p ∈ w.projects, r.projectDraw ≠ some p.id) ∧ ∀ t ∈ w.tasks, r.taskDraw ≠ some t.id)
    ⟨fun h => ⟨h.1, h.2⟩, fun h => ⟨h.project, h.task⟩⟩

instance (r r' : Request) : Decidable (r.Apart r') :=
  inferInstanceAs (Decidable ((∀ id, r.projectDraw = some id → _) ∧ ∀ id, r.taskDraw = some id → _))

instance {ι : Type} [Fintype ι] [DecidableEq ι] (w : World) (requests : ι → UUID × Request) :
    Decidable (FreshRequests w requests) :=
  decidable_of_iff ((∀ i, (requests i).2.FreshIn w) ∧ ∀ i k, i ≠ k → (requests i).2.Apart (requests k).2)
    ⟨fun h => ⟨h.1, h.2⟩, fun h => ⟨h.fresh, h.apart⟩⟩

/-- The constraints hold, and every session holds writes of its user. -/
structure OwnSound {ι : Type} (requests : ι → UUID × Request) (φ : ι → OwnPhase) (c : Threads ι) :
    Prop where
  valid : c.world.Valid
  sessions : ∀ i, OwnSession (requests i).1 (requests i).2 (φ i) (c.threads i).locals c.world

section Runs
variable {ι : Type} {env : Env} {requests : ι → UUID × Request} {φ : ι → OwnPhase} {c : Threads ι}

theorem OwnSound.start {w : World} (hvalid : w.Valid) (hfresh : FreshRequests w requests) :
    OwnSound requests (fun _ => .start) (beside w requests) where
  valid := hvalid
  sessions i := .idle (.inl rfl) rfl rfl (hfresh.fresh i)

/-- A request succeeds when it commits. -/
theorem ok_iff_committed
    (h : AllObey (machine env) (fun i => OwnMove (requests i).1 (requests i).2) (fun _ => OwnFinal)
      φ c) (i : ι) : (∃ reply, c.outcome i = some (.ok reply)) ↔ φ i = .committed := by
  constructor
  · intro hok
    obtain ⟨reply, hreply⟩ := hok
    exact h.final hreply
  · intro hi
    obtain ⟨o, ho⟩ := h.exists_outcome (i := i) fun cmd s φ' hm => by
      have hopen := OwnMove.isOpen (l := s.1) (w := s.2) hm
      rw [hi] at hopen
      cases hopen
    have hfinal := h.final ho
    rw [hi] at hfinal
    cases o with
    | ok reply => exact ⟨reply, ho⟩
    | error e => cases hfinal

variable [DecidableEq ι] {i : ι} {cmd : Cmd} {k : Except Exc cmd.Val → WorkM Reply} {φ' : OwnPhase}

theorem OwnSound.drift (h : OwnSound requests φ c) (n : Nat) :
    OwnSound requests φ (c.step (machine env) (.drift n)) where
  valid := h.valid.at
  sessions i := (h.sessions i).grows
    ⟨fun p hp => ⟨p, hp, rfl, rfl⟩, fun t ht => ⟨t, ht, rfl, rfl⟩⟩ fun hf => ⟨hf.project, hf.task⟩

/-- A statement changes the tables by effects of its user. -/
theorem OwnSound.issue_induction {P : World → Prop} (h : OwnSound requests φ c)
    (hm : OwnMove (requests i).1 (requests i).2 (φ i) cmd ((c.threads i).locals, c.world) φ')
    (hstep : ∀ v x, v.Valid → x.Own v (requests i).1 (requests i).2 →
      Effect v (requests i).1 (requests i).2 (v.write x) → P v → P (v.write x))
    (hP : P c.world) : P (c.issue (machine env) i cmd k).world := by
  rw [world_issue]
  exact (h.sessions i).exec_induction env h.valid hm hstep hP

theorem OwnSound.move (hapart : ∀ i k, i ≠ k → (requests i).2.Apart (requests k).2)
    (h : OwnSound requests φ c)
    (hm : OwnMove (requests i).1 (requests i).2 (φ i) cmd ((c.threads i).locals, c.world) φ') :
    OwnSound requests (Function.update φ i φ') (c.issue (machine env) i cmd k) := by
  have hvalid : (c.issue (machine env) i cmd k).world.Valid :=
    h.issue_induction hm (fun v x hv _ he _ => he.valid hv) h.valid
  refine ⟨hvalid, fun j => ?_⟩
  by_cases hj : j = i
  · subst hj
    rw [Function.update_self, Config.threads_issue_self, world_issue]
    exact (h.sessions j).exec env h.valid hm
  · rw [Function.update_of_ne hj, Config.threads_issue_of_ne hj]
    refine (h.sessions j).grows ?_ ?_
    · exact h.issue_induction hm (fun v x _ _ he hg => hg.trans he.grows) (World.Grows.refl _)
    · intro hf
      exact h.issue_induction hm (fun v x _ _ he hv => he.freshIn (hapart i j (Ne.symm hj)) hv) hf

/-- A statement that is not a commit that succeeds leaves the tables as they are. -/
theorem world_of_unsuccessful
    (h : AllObey (machine env) (fun i => OwnMove (requests i).1 (requests i).2) (fun _ => OwnFinal)
      φ c) (hp : (c.threads i).prog = .call cmd k)
    (hfail : ∀ reply, (c.issue (machine env) i cmd k).outcome i ≠ some (.ok reply)) :
    (c.issue (machine env) i cmd k).world = c.world := by
  obtain ⟨φ', hm, hobey⟩ := h.issue hp
  rw [world_issue]
  by_cases hc : cmd = .commit
  · subst hc
    obtain ⟨l', -, -, rfl⟩ | ⟨hflush, -⟩ := hm.of_commit
    · obtain ⟨reply, hreply⟩ := (ok_iff_committed hobey i).mpr (Function.update_self ..)
      exact absurd hreply (hfail reply)
    · simp only [exec, hflush]
  · exact exec_world hc

/-- Every request is in a phase in which it keeps to its rows. -/
def OwnInv (env : Env) (requests : ι → UUID × Request) (c : Threads ι) : Prop :=
  ∃ φ, AllObey (machine env) (fun i => OwnMove (requests i).1 (requests i).2) (fun _ => OwnFinal) φ c ∧
    OwnSound requests φ c

omit [DecidableEq ι] in
theorem OwnInv.start (env : Env) {w : World} (hvalid : w.Valid) (hfresh : FreshRequests w requests) :
    OwnInv env requests (beside w requests) :=
  ⟨fun _ => .start, own_obeys env w requests, .start hvalid hfresh⟩

theorem OwnInv.run (hapart : ∀ i k, i ≠ k → (requests i).2.Apart (requests k).2)
    (h : OwnInv env requests c) (schedule : List (Act ι Nat)) :
    OwnInv env requests (c.run (machine env) schedule) := by
  obtain ⟨φ, hobey, hsound⟩ := h
  exact run_invariant_forall (fun _ _ n _ h => h.drift n)
    (fun _ _ _ _ _ _ _ h _ hm => h.move hapart hm) hobey hsound schedule

end Runs

/-! ## What the others make of the tables -/

/-- What happens to the tables beside the request `r`: the constraints hold, no row goes, and
the draw of `r` stays new. -/
structure Meanwhile (r : Request) (w w' : World) : Prop where
  valid : w.Valid → w'.Valid
  grows : w.Grows w'
  fresh : r.FreshIn w → r.FreshIn w'

section Others
variable {env : Env} {r r' : Request} {w w' w'' : World} {u : UUID} {x : Write}

theorem Meanwhile.refl (w : World) : Meanwhile r w w := ⟨fun h => h, .refl w, fun h => h⟩

theorem Meanwhile.trans (h : Meanwhile r w w') (h' : Meanwhile r w' w'') : Meanwhile r w w'' :=
  ⟨fun hw => h'.valid (h.valid hw), h.grows.trans h'.grows, fun hr => h'.fresh (h.fresh hr)⟩

theorem Meanwhile.clock (w : World) (n : Nat) : Meanwhile r w { w with now := n } where
  valid h := h.at
  grows := ⟨(World.Grows.refl w).projects, (World.Grows.refl w).tasks⟩
  fresh h := ⟨h.project, h.task⟩

/-- A write of another request. -/
theorem Meanwhile.write (hapart : r'.Apart r) (heffect : Effect w u r' (w.write x)) :
    Meanwhile r w (w.write x) :=
  ⟨heffect.valid, heffect.grows, heffect.freshIn hapart⟩

variable {ι : Type} [DecidableEq ι] {requests : ι → UUID × Request} {c : Threads ι} {i j : ι}
  {cmd : Cmd} {k : Except Exc cmd.Val → WorkM Reply}

theorem OwnInv.meanwhile (hapart : ∀ i k, i ≠ k → (requests i).2.Apart (requests k).2)
    (h : OwnInv env requests c) (hp : (c.threads j).prog = .call cmd k) (hij : j ≠ i) :
    Meanwhile (requests i).2 c.world (c.issue (machine env) j cmd k).world := by
  obtain ⟨φ, hobey, hsound⟩ := h
  obtain ⟨φ', hm, -⟩ := hobey.issue hp
  refine hsound.issue_induction (P := fun v => Meanwhile (requests i).2 c.world v) hm ?_ (.refl _)
  exact fun v x _ _ heffect hv => hv.trans (.write (hapart j i hij) heffect)

end Others

/-! ### A create beside a delete of its project -/

theorem oneProject_valid : oneProject.Valid := by decide

theorem createBesideDelete_fresh : FreshRequests oneProject createBesideDelete := by decide +kernel

end TaskMgtApp.Work
