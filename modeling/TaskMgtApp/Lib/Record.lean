import Mathlib.Data.List.Basic

/-!
# Assigning the columns of a record

A loop of assignments to different columns, and the part of it that changes
something. A writer that skips the assignments of unchanged values writes the
same record (`foldl_changed`), and writes nothing exactly when the record stays
as it is (`changed_eq_nil`).
-/
namespace TaskMgtApp.Lib.Record

variable {M A κ : Type} {set : M → A → M} {column : A → κ}

/-- An assignment sets the value of its column, and of no other. -/
structure Columns (set : M → A → M) (column : A → κ) : Prop where
  again : ∀ m a, set (set m a) a = set m a
  other : ∀ m a b, column a ≠ column b → (set (set m a) b = set m a ↔ set m b = m)

/-- The assignments go to different columns. -/
def Distinct (column : A → κ) (fields : List A) : Prop :=
  fields.Pairwise fun a b => column a ≠ column b

section Assignments
variable {m : M} {fields : List A}

/-- A column that later assignments leave alone has the value that it had before. -/
theorem set_foldl_iff (hset : Columns set column) {a : A} (h : ∀ b ∈ fields, column b ≠ column a) :
    set (fields.foldl set m) a = fields.foldl set m ↔ set m a = m := by
  induction fields generalizing m with
  | nil => rfl
  | cons b bs ih =>
    have hb := h b List.mem_cons_self
    exact (ih fun c hc => h c (List.mem_cons_of_mem _ hc)).trans (hset.other m b a hb)

theorem set_foldl_of_mem (hset : Columns set column) (h : Distinct column fields) {a : A}
    (ha : a ∈ fields) : set (fields.foldl set m) a = fields.foldl set m := by
  induction fields generalizing m with
  | nil => cases ha
  | cons b bs ih =>
    obtain ⟨hb, hbs⟩ := List.pairwise_cons.mp h
    rw [List.foldl_cons]
    obtain rfl | ha := List.mem_cons.mp ha
    · exact (set_foldl_iff hset fun c hc => (hb c hc).symm).mpr (hset.again m a)
    · exact ih hbs ha

variable [DecidableEq M]

/-- The assignments of a value that the record does not have. -/
def changed (set : M → A → M) (m : M) (fields : List A) : List A :=
  fields.filter fun a => set m a ≠ m

theorem changed_set (hset : Columns set column) {a : A} (h : ∀ b ∈ fields, column a ≠ column b) :
    changed set (set m a) fields = changed set m fields := by
  apply List.filter_congr
  intro b hb
  exact decide_eq_decide.mpr (not_congr (hset.other m a b (h b hb)))

/-- The other assignments can be left out. -/
theorem foldl_changed (hset : Columns set column) (h : Distinct column fields) :
    (changed set m fields).foldl set m = fields.foldl set m := by
  induction fields generalizing m with
  | nil => rfl
  | cons a as ih =>
    obtain ⟨ha, has⟩ := List.pairwise_cons.mp h
    unfold changed at *
    by_cases hm : set m a = m
    · rw [List.filter_cons_of_neg (by simpa using hm), List.foldl_cons, hm]
      exact ih has
    · rw [List.filter_cons_of_pos (by simpa using hm), List.foldl_cons, List.foldl_cons, ← ih has]
      exact congrArg (List.foldl set (set m a)) (changed_set hset ha).symm

/-- Nothing is changed exactly when the record stays as it is. -/
theorem changed_eq_nil (hset : Columns set column) (h : Distinct column fields) :
    changed set m fields = [] ↔ fields.foldl set m = m := by
  constructor
  · intro hnil
    rw [← foldl_changed hset h, hnil]
    rfl
  · intro heq
    refine List.filter_eq_nil_iff.mpr fun a ha => ?_
    have hfix := set_foldl_of_mem (m := m) hset h ha
    rw [heq] at hfix
    simpa using hfix

end Assignments

end TaskMgtApp.Lib.Record
