import Mathlib.Data.List.Nodup
import Mathlib.Data.List.Perm.Basic

/-!
# Rows told apart by a key

A table is a list of rows with distinct keys. A lookup by key then does not depend
on the order of the rows (`find?_perm`), and a join lists the rows of each parent
together, up to order (`join_perm`). A step that may fail is taken over all rows by
`foldlM`; what it comes to is proved one step at a time (`foldlM_induction`).
-/
namespace TaskMgtApp.Lib.Rows

variable {α β κ : Type}

/-- No two rows have the same key. -/
def Keyed (key : α → κ) (rows : List α) : Prop := (rows.map key).Nodup

section Keyed
variable {key : α → κ} {rows rows' : List α} {a b : α}

theorem Keyed.eq_of_key (h : Keyed key rows) (ha : a ∈ rows) (hb : b ∈ rows)
    (hk : key a = key b) : a = b := List.inj_on_of_nodup_map h ha hb hk

theorem Keyed.sublist (h : Keyed key rows) (hs : rows'.Sublist rows) : Keyed key rows' :=
  List.Nodup.sublist (hs.map key) h

theorem Keyed.append (h : Keyed key rows) (ha : ∀ r ∈ rows, key r ≠ key a) :
    Keyed key (rows ++ [a]) := by
  unfold Keyed at *
  rw [List.map_append, List.nodup_append]
  refine ⟨h, List.nodup_singleton _, ?_⟩
  rintro x hx y hy rfl
  obtain ⟨r, hr, hrx⟩ := List.mem_map.mp hx
  exact ha r hr (hrx.trans (List.mem_singleton.mp hy))

/-- Rows that keep their keys stay told apart. -/
theorem Keyed.map {g : α → α} (h : Keyed key rows) (hg : ∀ r ∈ rows, key (g r) = key r) :
    Keyed key (rows.map g) := by
  unfold Keyed at *
  have hkeys : rows.map (key ∘ g) = rows.map key := List.map_congr_left hg
  rwa [List.map_map, hkeys]

/-- A lookup by the key of a row finds the row. -/
theorem Keyed.find?_key [BEq κ] [LawfulBEq κ] (h : Keyed key rows) (ha : a ∈ rows) :
    rows.find? (fun r => key r == key a) = some a := by
  have hfound : (rows.find? fun r => key r == key a).isSome :=
    List.find?_isSome.mpr ⟨a, ha, beq_self_eq_true _⟩
  obtain ⟨b, hb⟩ := Option.isSome_iff_exists.mp hfound
  have hkey : key b = key a := by simpa using List.find?_some hb
  rw [hb, h.eq_of_key (List.mem_of_find?_eq_some hb) ha hkey]

end Keyed

/-! ## Lookups -/

section Lookups
variable {rows rows' : List α} {p : α → Bool}

/-- Where at most one row fits, a lookup does not see the order of the rows. -/
theorem find?_perm (hperm : rows.Perm rows')
    (hone : ∀ a ∈ rows, ∀ b ∈ rows, p a → p b → a = b) : rows.find? p = rows'.find? p := by
  cases h : rows.find? p with
  | none =>
    have hnone := List.find?_eq_none.mp h
    exact (List.find?_eq_none.mpr fun a ha => hnone a (hperm.symm.subset ha)).symm
  | some a =>
    have ha := List.mem_of_find?_eq_some h
    have hpa := List.find?_some h
    cases h' : rows'.find? p with
    | none => exact absurd hpa (List.find?_eq_none.mp h' a (hperm.subset ha))
    | some b =>
      have hb := hperm.symm.subset (List.mem_of_find?_eq_some h')
      rw [hone a ha b hb hpa (List.find?_some h')]

/-- Rows outside the view may change, as long as they stay outside. -/
theorem filter_map_of_fixed {g : α → α} (hp : ∀ a ∈ rows, p (g a) = p a)
    (hfix : ∀ a ∈ rows, p a → g a = a) : (rows.map g).filter p = rows.filter p := by
  induction rows with
  | nil => rfl
  | cons a as ih =>
    have ih := ih (fun b hb => hp b (List.mem_cons_of_mem _ hb))
      fun b hb => hfix b (List.mem_cons_of_mem _ hb)
    have ha := hp a List.mem_cons_self
    rw [List.map_cons]
    by_cases h : p a
    · rw [List.filter_cons_of_pos (ha.trans h), List.filter_cons_of_pos h, ih,
        hfix a List.mem_cons_self h]
    · rw [List.filter_cons_of_neg (by rwa [ha]), List.filter_cons_of_neg h, ih]

/-- Rows that fail `p` when they are changed drop out. -/
theorem filter_map_of_fails {q : α → Prop} [DecidablePred q] {g : α → α} (hg : ∀ a, p (g a) = false)
    (rows : List α) :
    (rows.map fun a => if q a then g a else a).filter p = (rows.filter p).filter fun a => ¬ q a := by
  induction rows with
  | nil => rfl
  | cons a as ih =>
    by_cases hq : q a
    · rw [List.map_cons, if_pos hq, List.filter_cons_of_neg (by simp [hg]), ih, List.filter_filter,
        List.filter_filter, List.filter_cons_of_neg (by simp [hq])]
    · rw [List.map_cons, if_neg hq, List.filter_cons, List.filter_cons, ih]
      split
      · rw [List.filter_cons_of_pos (by simp [hq])]
      · rfl

/-- Where every row has a result, so has the list. -/
theorem mapM_eq_some {f : α → Option β} {g : α → β} (h : ∀ a ∈ rows, f a = some (g a)) :
    rows.mapM f = some (rows.map g) := by
  induction rows with
  | nil => rfl
  | cons a as ih =>
    rw [List.mapM_cons, h a List.mem_cons_self, ih fun b hb => h b (List.mem_cons_of_mem _ hb)]
    rfl

/-- One result for each row. -/
theorem length_of_mapM {f : α → Option β} {results : List β} (h : rows.mapM f = some results) :
    results.length = rows.length := by
  induction rows generalizing results with
  | nil =>
    obtain rfl := Option.some.inj h
    rfl
  | cons a as ih =>
    simp only [List.mapM_cons, Option.bind_eq_bind, Option.bind_eq_some_iff] at h
    obtain ⟨b, -, bs, hbs, heq⟩ := h
    obtain rfl := Option.some.inj heq
    rw [List.length_cons, List.length_cons, ih hbs]

/-- What relates the first state of a `foldlM` that comes through to its last: it holds of no
steps, and one more step in front keeps it. -/
theorem foldlM_induction {f : β → α → Option β} {P : List α → β → β → Prop}
    (hnil : ∀ b, P [] b b)
    (hcons : ∀ a as b b' c, f b a = some b' → P as b' c → P (a :: as) b c) {b c : β}
    (h : rows.foldlM f b = some c) : P rows b c := by
  induction rows generalizing b with
  | nil =>
    obtain rfl := Option.some.inj h
    exact hnil b
  | cons a as ih =>
    rw [List.foldlM_cons] at h
    obtain ⟨b', hb', hrest⟩ := Option.bind_eq_some_iff.mp h
    exact hcons a as b b' c hb' (ih hrest)

end Lookups

/-! ## Growing tables -/

/-- The rows are still there, in their order and each as `R` allows it, before new ones. -/
def Extends (R : α → α → Prop) (rows rows' : List α) : Prop :=
  ∃ old new, rows' = old ++ new ∧ List.Forall₂ R rows old

section Extends
variable {R : α → α → Prop} {rows rows' rows'' : List α}

theorem Extends.append (hR : ∀ a, R a a) (new : List α) : Extends R rows (rows ++ new) :=
  ⟨rows, new, rfl, List.forall₂_same.mpr fun a _ => hR a⟩

theorem Extends.refl (hR : ∀ a, R a a) : Extends R rows rows := by
  have h : Extends R rows (rows ++ []) := .append hR []
  rwa [List.append_nil] at h

theorem Extends.map {g : α → α} (hg : ∀ a ∈ rows, R a (g a)) : Extends R rows (rows.map g) := by
  refine ⟨rows.map g, [], (List.append_nil _).symm, ?_⟩
  rw [List.forall₂_map_right_iff]
  exact List.forall₂_same.mpr hg

theorem Extends.trans (hR : ∀ a b c, R a b → R b c → R a c) (h : Extends R rows rows')
    (h' : Extends R rows' rows'') : Extends R rows rows'' := by
  obtain ⟨old, new, rfl, hold⟩ := h
  obtain ⟨old', new', rfl, hold'⟩ := h'
  obtain ⟨kept, more, hkept, -, rfl⟩ : ∃ kept more, List.Forall₂ R old kept ∧
      List.Forall₂ R new more ∧ old' = kept ++ more := by
    refine ⟨old'.take old.length, old'.drop old.length, ?_, ?_, (List.take_append_drop ..).symm⟩
    · simpa using List.forall₂_take old.length hold'
    · simpa using List.forall₂_drop old.length hold'
  refine ⟨kept, more ++ new', List.append_assoc .., ?_⟩
  clear hold'
  induction hold generalizing kept with
  | nil =>
    cases hkept
    exact .nil
  | cons hab _ ih =>
    cases hkept with
    | cons hbc hrest => exact .cons (hR _ _ _ hab hbc) (ih _ hrest)

end Extends

/-! ## Joins -/

/-- The rows with a parent in the list are the rows of each parent in turn. -/
theorem join_perm [DecidableEq κ] {parents : List β} {key : β → κ} (h : Keyed key parents)
    (rows : List α) (parent : α → κ) :
    (rows.filter fun r => parents.any fun p => key p == parent r).Perm
      (parents.flatMap fun p => rows.filter fun r => parent r == key p) := by
  induction parents with
  | nil => simp
  | cons p ps ih =>
    have hp : key p ∉ ps.map key := (List.nodup_cons.mp h).1
    rw [List.flatMap_cons]
    refine (List.filter_append_perm (fun r => parent r == key p) _).symm.trans ?_
    rw [List.filter_filter, List.filter_filter]
    refine List.Perm.append (.of_eq ?_) (.trans (.of_eq ?_) (ih (List.nodup_cons.mp h).2))
    · apply List.filter_congr
      intro r _
      by_cases hr : parent r = key p
      · simp [hr]
      · simp [hr]
    · apply List.filter_congr
      intro r _
      by_cases hr : parent r = key p
      · have hnone : ps.any (fun q => key q == parent r) = false := by
          simp only [List.any_eq_false, beq_iff_eq]
          exact fun q hq hqr => hp (List.mem_map.mpr ⟨q, hq, hqr.trans hr⟩)
        simpa [hr] using hnone
      · have hr₁ : (parent r == key p) = false := beq_eq_false_iff_ne.mpr hr
        have hr₂ : (key p == parent r) = false := beq_eq_false_iff_ne.mpr (Ne.symm hr)
        rw [List.any_cons, hr₁, hr₂]
        simp

end TaskMgtApp.Lib.Rows
