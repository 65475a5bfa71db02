import Mathlib.Data.List.Pairwise
import Mathlib.Logic.Function.Basic
import TaskMgtApp.Lib.Record

/-!
# Many writers of one record

Every writer has columns of its own. It works on a copy of the record that it took at
some time, and sends the values that differ from its copy. In whatever order they send,
the record ends up with the values of all of them and keeps every other column
(`Merged.send`).
-/
namespace TaskMgtApp.Lib.Record

variable {M A κ ι : Type} {set : M → A → M} {column : A → κ} {base m m' : M}

/-- The two records have the same values in the columns that can be assigned. -/
def Alike (set : M → A → M) (m m' : M) : Prop := ∀ a, set m a = m ↔ set m' a = m'

/-- The record has the values in `done`, and those of `base` in all other columns. -/
structure Merged (set : M → A → M) (column : A → κ) (base : M) (done : ι → List A) (m : M) :
    Prop where
  written : ∀ i, ∀ a ∈ done i, set m a = m
  kept : ∀ a, (∀ i, ∀ b ∈ done i, column b ≠ column a) → (set m a = m ↔ set base a = base)

/-- What a writer sends of the values that it has assigned: all but some that `base` has. -/
structure Sends (set : M → A → M) (column : A → κ) (base : M) (fields sent : List A) : Prop where
  distinct : Distinct column fields
  sublist : sent.Sublist fields
  covers : ∀ a ∈ fields, a ∈ sent ∨ set base a = base

theorem Distinct.column_ne {fields : List A} (h : Distinct column fields) {a b : A}
    (ha : a ∈ fields) (hb : b ∈ fields) (hne : a ≠ b) : column a ≠ column b := by
  have : Std.Symm fun a b : A => column a ≠ column b := ⟨fun _ _ => Ne.symm⟩
  exact List.Pairwise.forall h ha hb hne

theorem Merged.start : Merged set column base (fun _ : ι => []) base where
  written _ _ ha := by cases ha
  kept _ _ := Iff.rfl

theorem Merged.congr {done : ι → List A} (h : Merged set column base done m)
    (halike : Alike set m' m) : Merged set column base done m' where
  written i a ha := (halike a).mpr (h.written i a ha)
  kept a ha := (halike a).trans (h.kept a ha)

theorem Sends.nil : Sends set column base [] [] where
  distinct := List.Pairwise.nil
  sublist := List.Sublist.refl _
  covers _ ha := by cases ha

/-- A writer whose copy has its columns as in `base` sends what its copy lacks. -/
theorem Sends.changed [DecidableEq M] {fields : List A} (hdistinct : Distinct column fields)
    (hcopy : ∀ a ∈ fields, set m a = m ↔ set base a = base) :
    Sends set column base fields (changed set m fields) where
  distinct := hdistinct
  sublist := List.filter_sublist
  covers a ha := by
    by_cases hm : set m a = m
    · exact .inr ((hcopy a ha).mp hm)
    · exact .inl (List.mem_filter.mpr ⟨ha, by simpa using hm⟩)

/-- A writer sends its values: the record has them, and those of the others as before. -/
theorem Merged.send [DecidableEq ι] (hset : Columns set column) {done : ι → List A}
    (h : Merged set column base done m) {i : ι} (hi : done i = []) {fields sent : List A}
    (hsends : Sends set column base fields sent)
    (hother : ∀ k, ∀ b ∈ done k, ∀ a ∈ fields, column b ≠ column a) :
    Merged set column base (Function.update done i fields) (sent.foldl set m) := by
  constructor
  · intro k a ha
    by_cases hk : k = i
    · subst hk
      rw [Function.update_self] at ha
      by_cases hsent : a ∈ sent
      · exact set_foldl_of_mem hset (hsends.distinct.sublist hsends.sublist) hsent
      · have hbase := (hsends.covers a ha).resolve_left hsent
        have hm := (h.kept a fun k b hb => hother k b hb a ha).mpr hbase
        refine (set_foldl_iff hset fun b hb => ?_).mpr hm
        exact hsends.distinct.column_ne (hsends.sublist.subset hb) ha fun heq => hsent (heq ▸ hb)
    · rw [Function.update_of_ne hk] at ha
      refine (set_foldl_iff hset fun b hb => ?_).mpr (h.written k a ha)
      exact (hother k a ha b (hsends.sublist.subset hb)).symm
  · intro a ha
    have hfields : ∀ b ∈ fields, column b ≠ column a := by
      intro b hb
      exact ha i b (by rwa [Function.update_self])
    rw [set_foldl_iff hset fun b hb => hfields b (hsends.sublist.subset hb)]
    refine h.kept a fun k b hb => ?_
    by_cases hk : k = i
    · rw [hk, hi] at hb
      cases hb
    · exact ha k b (by rwa [Function.update_of_ne hk])

end TaskMgtApp.Lib.Record
