import Mathlib.Data.List.Sort

/-!
# Sorted listings and their pages

Rows sorted by time, the latest first. Rows of the same time may come in any
order; a rank says in which. If the rank tells the rows apart, the listing does
not depend on the order in which the rows were found (`latestFirst_perm`).
-/
namespace TaskMgtApp.Lib.Listing

variable {α β : Type} (time rank : α → Nat)

/-- `a` comes before `b`: it is later, or of the same time with no higher rank. -/
def Before (a b : α) : Prop := time b < time a ∨ (time a = time b ∧ rank a ≤ rank b)

instance (a b : α) : Decidable (Before time rank a b) :=
  inferInstanceAs (Decidable (_ ∨ _))

instance : IsTrans α (Before time rank) where
  trans a b c hab hbc := by
    unfold Before at *
    omega

instance : Std.Total (Before time rank) where
  total a b := by
    unfold Before
    omega

/-- The rows, the latest first. -/
def latestFirst (rows : List α) : List α := rows.insertionSort (Before time rank)

/-- At most `limit` rows after the first `offset`. -/
def page (offset limit : Nat) (rows : List α) : List α := (rows.drop offset).take limit

variable {time rank}

theorem latestFirst_subset {rows : List α} {a : α} : a ∈ latestFirst time rank rows ↔ a ∈ rows :=
  List.mem_insertionSort _

theorem page_subset {offset limit : Nat} {rows : List α} {a : α} (h : a ∈ page offset limit rows) :
    a ∈ rows := List.mem_of_mem_drop (List.mem_of_mem_take h)

theorem latestFirst_perm_rows {rows : List α} : (latestFirst time rank rows).Perm rows :=
  List.perm_insertionSort _ rows

theorem length_latestFirst {rows : List α} : (latestFirst time rank rows).length = rows.length :=
  latestFirst_perm_rows.length_eq

/-- The order in which rows were found does not show. -/
theorem latestFirst_perm {rows rows' : List α} (hperm : rows.Perm rows')
    (hrank : ∀ a ∈ rows, ∀ b ∈ rows, rank a = rank b → a = b) :
    latestFirst time rank rows = latestFirst time rank rows' := by
  have hsorted : (latestFirst time rank rows).Perm (latestFirst time rank rows') :=
    (List.perm_insertionSort _ rows).trans (hperm.trans (List.perm_insertionSort _ rows').symm)
  refine List.Perm.eq_of_pairwise ?_ (List.pairwise_insertionSort _ rows)
    (List.pairwise_insertionSort _ rows') hsorted
  intro a b ha hb hab hba
  have ha' : a ∈ rows := latestFirst_subset.mp ha
  have hb' : b ∈ rows := hperm.symm.subset (latestFirst_subset.mp hb)
  apply hrank a ha' b hb'
  unfold Before at hab hba
  omega

/-- A listing of images is the image of the listing. -/
theorem latestFirst_map (f : α → β) (time' rank' : β → Nat) (rows : List α)
    (htime : ∀ a ∈ rows, time' (f a) = time a) (hrank : ∀ a ∈ rows, rank' (f a) = rank a) :
    latestFirst time' rank' (rows.map f) = (latestFirst time rank rows).map f := by
  refine (List.map_insertionSort _ _ f rows fun a ha b hb => ?_).symm
  unfold Before
  rw [htime a ha, htime b hb, hrank a ha, hrank b hb]

theorem page_map (f : α → β) (offset limit : Nat) (rows : List α) :
    page offset limit (rows.map f) = (page offset limit rows).map f := by
  simp [page, List.map_take, List.map_drop]

end TaskMgtApp.Lib.Listing
