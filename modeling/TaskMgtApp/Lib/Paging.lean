import Mathlib.Data.List.Perm.Basic
import TaskMgtApp.Lib.Listing

/-!
# Pages of listings that are sorted anew

Every page is cut from a listing of its own, and the listings may put rows of the same
time in different orders. A cut between two pages is clean if no two rows of the same
time are on its two sides. The pages of separate listings are a partition of the rows
if every cut is clean (`pages_perm`); across any other cut a row can get lost
(`exists_missed`).
-/
namespace TaskMgtApp.Lib.Listing

variable {α : Type} (time : α → Nat)

/-- The rows later than `t`. -/
def later (t : Nat) (rows : List α) : List α := rows.filter fun a => t < time a

/-- The rows not earlier than `t`. -/
def since (t : Nat) (rows : List α) : List α := rows.filter fun a => t ≤ time a

/-- No two rows of the same time are on the two sides of a cut after `n` rows. -/
def CleanCut (rows : List α) (n : Nat) : Prop :=
  ∀ a ∈ rows, n ≤ (later time (time a) rows).length ∨ (since time (time a) rows).length ≤ n

instance (rows : List α) (n : Nat) : Decidable (CleanCut time rows n) :=
  inferInstanceAs (Decidable (∀ a ∈ rows, _ ∨ _))

variable {time} {rank rank' : α → Nat} {rows : List α} {n : Nat}

/-! ## The two sides of a cut -/

theorem latestFirst_split {before after : List α}
    (h : latestFirst time rank rows = before ++ after) {a b : α} (ha : a ∈ before)
    (hb : b ∈ after) : Before time rank a b := by
  have hsorted := List.pairwise_insertionSort (Before time rank) rows
  rw [show List.insertionSort (Before time rank) rows = before ++ after from h] at hsorted
  exact (List.pairwise_append.mp hsorted).2.2 a ha b hb

/-- A filter that all rows on one side pass and none on the other keeps that side. -/
theorem filter_append_eq_left {p : α → Bool} {before after : List α}
    (hbefore : ∀ a ∈ before, p a = true)
    (hlen : ((before ++ after).filter p).length ≤ before.length) :
    (before ++ after).filter p = before := by
  rw [List.filter_append, List.filter_eq_self.mpr hbefore] at hlen ⊢
  rw [List.length_append] at hlen
  have hnone : (after.filter p).length = 0 := by omega
  rw [List.eq_nil_of_length_eq_zero hnone, List.append_nil]

/-- The rows before a clean cut are those since the time of the last of them. -/
theorem CleanCut.since_eq {before after : List α} {e : α}
    (hsplit : latestFirst time rank rows = before ++ e :: after)
    (h : CleanCut time rows (before.length + 1)) :
    since time (time e) (latestFirst time rank rows) = before ++ [e] := by
  have hsplit' : latestFirst time rank rows = (before ++ [e]) ++ after := by
    rw [hsplit, List.append_assoc, List.singleton_append]
  have hperm : (latestFirst time rank rows).Perm rows := latestFirst_perm_rows
  have he : e ∈ rows := hperm.subset (by rw [hsplit]; simp)
  -- no row from `e` on is later than `e`
  have hlater : (later time (time e) rows).length ≤ before.length := by
    have hnone : later time (time e) (e :: after) = [] := by
      refine List.filter_eq_nil_iff.mpr fun a ha => ?_
      rcases List.mem_cons.mp ha with rfl | hafter
      · simp
      · have hab := latestFirst_split hsplit' (List.mem_append_right _ (List.mem_singleton_self e)) hafter
        unfold Before at hab
        simp only [decide_eq_true_eq]
        omega
    rw [later] at hnone ⊢
    rw [← (hperm.filter _).length_eq, hsplit, List.filter_append, hnone, List.append_nil]
    exact List.length_filter_le _ _
  have hsince : (since time (time e) (latestFirst time rank rows)).length ≤ before.length + 1 := by
    rw [since, (hperm.filter _).length_eq]
    rcases h e he with hle | hle
    · omega
    · exact hle
  rw [since, hsplit'] at hsince ⊢
  refine filter_append_eq_left (fun a ha => ?_) (by simpa using hsince)
  rcases List.mem_append.mp ha with hbefore | hlast
  · have hab := latestFirst_split hsplit hbefore List.mem_cons_self
    unfold Before at hab
    simp only [decide_eq_true_eq]
    omega
  · rw [List.mem_singleton.mp hlast]
    simp

theorem CleanCut.take_perm_since (rank : α → Nat) (h : CleanCut time rows n) (hn : 0 < n)
    (hlt : n ≤ rows.length) :
    ∃ t, ((latestFirst time rank rows).take n).Perm (since time t rows) := by
  obtain ⟨m, rfl⟩ : ∃ m, n = m + 1 := ⟨n - 1, by omega⟩
  have hm : m < (latestFirst time rank rows).length := by
    rw [length_latestFirst]
    omega
  have hsplit : latestFirst time rank rows = (latestFirst time rank rows).take m ++
      (latestFirst time rank rows)[m] :: (latestFirst time rank rows).drop (m + 1) := by
    rw [← List.drop_eq_getElem_cons, List.take_append_drop]
  have hlength : ((latestFirst time rank rows).take m).length = m := by
    rw [List.length_take]
    omega
  refine ⟨time (latestFirst time rank rows)[m], ?_⟩
  have heq := CleanCut.since_eq hsplit (by rwa [hlength])
  rw [← List.take_succ_eq_append_getElem hm] at heq
  rw [← heq]
  exact latestFirst_perm_rows.filter _

/-- The rows before a clean cut are the same in every order. -/
theorem CleanCut.take_perm (rank rank' : α → Nat) (h : CleanCut time rows n) :
    ((latestFirst time rank rows).take n).Perm ((latestFirst time rank' rows).take n) := by
  rcases Nat.eq_zero_or_pos n with rfl | hn
  · rfl
  rcases Nat.lt_or_ge rows.length n with hlt | hge
  · rw [List.take_of_length_le (by rw [length_latestFirst]; omega),
      List.take_of_length_le (by rw [length_latestFirst]; omega)]
    exact latestFirst_perm_rows.trans latestFirst_perm_rows.symm
  · obtain ⟨t, ht⟩ := h.take_perm_since rank hn hge
    obtain ⟨t', ht'⟩ := h.take_perm_since rank' hn hge
    have hlength : (since time t rows).length = (since time t' rows).length := by
      rw [← ht.length_eq, ← ht'.length_eq, List.length_take, List.length_take, length_latestFirst,
        length_latestFirst]
    have hsince : since time t rows = since time t' rows := by
      have hsub : ∀ {a b}, a ≤ b → (since time b rows).Sublist (since time a rows) := fun hab =>
        List.monotone_filter_right _ fun r hr => by
          simp only [decide_eq_true_eq] at hr ⊢
          omega
      rcases Nat.le_total t t' with hle | hle
      · exact ((hsub hle).eq_of_length hlength.symm).symm
      · exact (hsub hle).eq_of_length hlength
    rw [← hsince] at ht'
    exact ht.trans ht'.symm

theorem length_since (t : Nat) (rows : List α) :
    (since time t rows).length = (later time t rows).length + (rows.map time).count t := by
  induction rows with
  | nil => rfl
  | cons a as ih =>
    unfold since later at *
    rw [List.map_cons, List.count_cons]
    rcases Nat.lt_trichotomy t (time a) with h | h | h
    · have hne : (time a == t) = false := beq_eq_false_iff_ne.mpr (by omega)
      rw [List.filter_cons_of_pos (by simpa using Nat.le_of_lt h),
        List.filter_cons_of_pos (by simpa using h), hne]
      simp only [List.length_cons, ih, Bool.false_eq_true, if_false]
      omega
    · have heq : (time a == t) = true := beq_iff_eq.mpr h.symm
      rw [List.filter_cons_of_pos (by simpa using Nat.le_of_eq h),
        List.filter_cons_of_neg (by simp [h]), heq]
      simp only [List.length_cons, ih, if_true]
      omega
    · have hne : (time a == t) = false := beq_eq_false_iff_ne.mpr (by omega)
      rw [List.filter_cons_of_neg (by simpa using h),
        List.filter_cons_of_neg (by simpa using Nat.le_of_lt h), hne, ih]
      rfl

/-- Where all times differ, every cut is clean. -/
theorem CleanCut.of_nodup (h : (rows.map time).Nodup) (n : Nat) : CleanCut time rows n := by
  intro a _
  have hlength : (since time (time a) rows).length = (later time (time a) rows).length +
      (rows.map time).count (time a) := length_since (time a) rows
  have hcount := List.nodup_iff_count_le_one.mp h (time a)
  omega

/-! ## Pages -/

theorem page_eq_drop_take (offset limit : Nat) (l : List α) :
    page offset limit l = (l.take (offset + limit)).drop offset := by
  rw [page, List.drop_take]
  congr 1
  omega

/-- A page between clean cuts has the same rows in every order. -/
theorem page_perm {offset limit : Nat} (h : CleanCut time rows offset)
    (h' : CleanCut time rows (offset + limit)) :
    (page offset limit (latestFirst time rank rows)).Perm
      (page offset limit (latestFirst time rank' rows)) := by
  have hall := h'.take_perm rank rank'
  have hfirst := h.take_perm rank rank'
  rw [List.take_add, List.take_add] at hall
  exact (List.perm_append_left_iff _).mp ((hfirst.symm.append_right _).trans hall)

/-- The pages of one listing. -/
theorem pages_eq_take (k m : Nat) (l : List α) :
    ((List.range m).flatMap fun p => page (p * k) k l) = l.take (m * k) := by
  induction m with
  | zero => simp
  | succ m ih => rw [List.range_succ, List.flatMap_append, ih, List.flatMap_singleton, page,
      ← List.take_add, Nat.succ_mul]

theorem length_page (offset limit : Nat) :
    (page offset limit (latestFirst time rank rows)).length = min limit (rows.length - offset) := by
  rw [page, List.length_take, List.length_drop, length_latestFirst]

/-- Pages of separate listings are a partition of the rows if every cut is clean. -/
theorem pages_perm {k m : Nat} {ranks : Nat → α → Nat} (hm : rows.length ≤ m * k)
    (h : ∀ j, CleanCut time rows (j * k)) :
    ((List.range m).flatMap fun p => page (p * k) k (latestFirst time (ranks p) rows)).Perm rows := by
  have hpages : ((List.range m).flatMap fun p =>
      page (p * k) k (latestFirst time (ranks p) rows)).Perm
      ((List.range m).flatMap fun p => page (p * k) k (latestFirst time (ranks 0) rows)) :=
    List.Perm.flatMap_left _ fun p _ => page_perm (h p) (by rw [← Nat.succ_mul]; exact h (p + 1))
  rw [pages_eq_take, List.take_of_length_le (by rwa [length_latestFirst])] at hpages
  exact hpages.trans latestFirst_perm_rows

/-! ## Rows that get lost -/

/-- Where all rows before a cut are later than `t`, so many rows are. -/
theorem le_length_later {t : Nat} (hn : n ≤ rows.length)
    (h : ∀ b ∈ (latestFirst time rank rows).take n, t < time b) : n ≤ (later time t rows).length := by
  have hfilter : (later time t (latestFirst time rank rows)).length = (later time t rows).length :=
    (latestFirst_perm_rows.filter _).length_eq
  have hall : ((latestFirst time rank rows).take n).filter (fun b => t < time b) =
      (latestFirst time rank rows).take n :=
    List.filter_eq_self.mpr fun b hb => by simpa using h b hb
  rw [← hfilter, later, ← List.take_append_drop n (latestFirst time rank rows), List.filter_append,
    hall, List.length_append, List.length_take, length_latestFirst]
  omega

theorem not_mem_take_and_drop (hnodup : rows.Nodup) {a b : α}
    (ha : a ∈ (latestFirst time rank rows).take n) (hb : b ∈ (latestFirst time rank rows).drop n) :
    a ≠ b := by
  have hsorted : (latestFirst time rank rows).Nodup := latestFirst_perm_rows.nodup_iff.mpr hnodup
  rw [← List.take_append_drop n (latestFirst time rank rows), List.nodup_append] at hsorted
  exact hsorted.2.2 a ha b hb

/-- Across a cut that is not clean, a row that one order has behind the cut is before it in
every order that puts the row first among those of its time. -/
theorem exists_missed (rank : α → Nat) (hnodup : rows.Nodup) (hcut : ¬ CleanCut time rows n) :
    ∃ y ∈ rows, y ∉ (latestFirst time rank rows).take n ∧
      ∀ rank' : α → Nat, (∀ b ∈ rows, rank' b ≤ rank' y → b = y) →
        y ∉ (latestFirst time rank' rows).drop n := by
  simp only [CleanCut, not_forall, not_or, Nat.not_le] at hcut
  obtain ⟨a, -, hlater, hsince⟩ := hcut
  have hn : n ≤ rows.length := by
    have hle : (since time (time a) rows).length ≤ rows.length := List.length_filter_le _ _
    omega
  -- not all rows since that time fit in front of the cut
  have hbehind : ∃ y ∈ (latestFirst time rank rows).drop n, time a ≤ time y := by
    by_contra hnone
    have hempty : ((latestFirst time rank rows).drop n).filter (fun b => time a ≤ time b) = [] :=
      List.filter_eq_nil_iff.mpr fun b hb => by
        simp only [decide_eq_true_eq]
        exact fun hab => hnone ⟨b, hb, hab⟩
    have hfilter : (since time (time a) (latestFirst time rank rows)).length =
        (since time (time a) rows).length := (latestFirst_perm_rows.filter _).length_eq
    rw [since, ← List.take_append_drop n (latestFirst time rank rows), List.filter_append, hempty,
      List.append_nil] at hfilter
    have hle := List.length_filter_le (fun b => decide (time a ≤ time b))
      ((latestFirst time rank rows).take n)
    rw [List.length_take] at hle
    omega
  obtain ⟨y, hy, hay⟩ := hbehind
  have htime : time y = time a := by
    by_contra hne
    have hle : n ≤ (later time (time a) rows).length := le_length_later hn fun b hb => by
      have hby := latestFirst_split (List.take_append_drop n _).symm hb hy
      unfold Before at hby
      omega
    omega
  have hmem : y ∈ rows := latestFirst_subset.mp (List.mem_of_mem_drop hy)
  refine ⟨y, hmem, fun htake => not_mem_take_and_drop hnodup htake hy rfl, ?_⟩
  intro rank' hfirst hdrop
  have hle : n ≤ (later time (time y) rows).length := le_length_later hn fun b hb => by
    have hne := not_mem_take_and_drop hnodup hb hdrop
    have hby := latestFirst_split (List.take_append_drop n _).symm hb hdrop
    have hb' : b ∈ rows := latestFirst_subset.mp (List.mem_of_mem_take hb)
    rcases hby with hlt | ⟨-, hrank⟩
    · exact hlt
    · exact absurd (hfirst b hb' hrank) hne
  rw [htime] at hle
  omega

/-- The rows that a row is not on any page of: in front of a cut by one order, behind it by
the other. -/
theorem not_mem_pages {k j m : Nat} {y : α}
    (htake : y ∉ (latestFirst time rank rows).take (j * k))
    (hdrop : y ∉ (latestFirst time rank' rows).drop (j * k)) :
    y ∉ (List.range m).flatMap fun p =>
      page (p * k) k (latestFirst time (if p < j then rank else rank') rows) := by
  rw [List.mem_flatMap]
  rintro ⟨p, -, hp⟩
  split at hp
  · rename_i hlt
    rw [page_eq_drop_take, ← Nat.succ_mul] at hp
    have hle : (p + 1) * k ≤ j * k := Nat.mul_le_mul_right k hlt
    exact htake ((List.take_subset_take_left _ hle) (List.mem_of_mem_drop hp))
  · rename_i hge
    have hle : j * k ≤ p * k := Nat.mul_le_mul_right k (Nat.not_lt.mp hge)
    exact hdrop ((List.drop_subset_drop_left _ hle) (List.mem_of_mem_take hp))

end TaskMgtApp.Lib.Listing
