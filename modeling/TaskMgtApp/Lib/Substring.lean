import Mathlib.Data.List.Infix
import TaskMgtApp.Lib.Like

/-!
# LIKE patterns as substring search

The pattern `%p%` asks for the substring `p` if `p` has no percent sign, underscore or
backslash in it (`like_substring`). For every other `p` there is a string without the
substring that the pattern matches all the same: `p` with a match in place of each of
its wildcards and escapes (`loosely`).
-/
namespace TaskMgtApp.Lib.Like

/-- The characters that do not stand for themselves in a pattern. -/
def wild (c : Char) : Bool := ['%', '_', '\\'].contains c

/-- The pattern `%p%`. -/
def around (p : List Char) : List Char := '%' :: (p ++ ['%'])

theorem anySuffix_eq_true {q : List Char → Bool} {s : List Char} :
    anySuffix q s = true ↔ ∃ t, t <:+ s ∧ q t = true := by
  induction s with
  | nil => simp [anySuffix]
  | cons c cs ih =>
    rw [anySuffix, Bool.or_eq_true, ih]
    constructor
    · rintro (h | ⟨t, ht, h⟩)
      · exact ⟨_, List.suffix_rfl, h⟩
      · exact ⟨t, ht.trans (List.suffix_cons c cs), h⟩
    · rintro ⟨t, ht, h⟩
      rcases List.suffix_cons_iff.mp ht with rfl | ht
      · exact .inl h
      · exact .inr ⟨t, ht, h⟩

theorem parse_around (p : List Char) : parse (around p) = (parse (p ++ ['%'])).map (.many :: ·) := rfl

/-! ## Patterns without wildcards -/

theorem parse_cons_plain {c : Char} (hc : wild c = false) (cs : List Char) :
    parse (c :: cs) = (parse cs).map (.lit c :: ·) := by
  simp only [wild, List.contains_cons, List.contains_nil, Bool.or_false, Bool.or_eq_false_iff,
    beq_eq_false_iff_ne] at hc
  rw [parse]
  · exact fun h _ => hc.2.2 h
  · exact fun _ _ h _ => hc.2.2 h
  · exact fun h => hc.1 h
  · exact fun h => hc.2.1 h

theorem parse_plain {p : List Char} (hplain : ∀ c ∈ p, wild c = false) :
    parse (p ++ ['%']) = some (p.map .lit ++ [.many]) := by
  induction p with
  | nil => rfl
  | cons c cs ih =>
    rw [List.cons_append, parse_cons_plain (hplain c List.mem_cons_self),
      ih fun d hd => hplain d (List.mem_cons_of_mem _ hd)]
    rfl

theorem matches_literal {p s : List Char} :
    matches? (p.map .lit ++ [.many]) s = true ↔ p <+: s := by
  induction p generalizing s with
  | nil =>
    simp only [List.map_nil, List.nil_append, matches?, List.nil_prefix, iff_true]
    exact anySuffix_eq_true.mpr ⟨[], List.nil_suffix, rfl⟩
  | cons c cs ih =>
    cases s with
    | nil => simp [matches?]
    | cons d ds => simp [matches?, ih, List.cons_prefix_cons]

/-- Without wildcards the pattern is a search for a substring. -/
theorem like_substring {p : List Char} (hplain : ∀ c ∈ p, wild c = false) (s : List Char) :
    like (around p) s = some (decide (p <:+: s)) := by
  rw [like, parse_around, parse_plain hplain, Option.map_some, Option.map_some, Option.some_inj,
    Bool.eq_iff_iff, decide_eq_true_eq, matches?, anySuffix_eq_true]
  constructor
  · rintro ⟨t, ht, hmatch⟩
    exact (matches_literal.mp hmatch).isInfix.trans ht.isInfix
  · intro h
    obtain ⟨t, hp, ht⟩ := List.infix_iff_prefix_suffix.mp h
    exact ⟨t, ht, matches_literal.mpr hp⟩

/-! ## Patterns with wildcards -/

/-- A string that the pattern `%p%` matches: nothing for a percent sign, `x` for an
underscore, and for an escape the character it takes as it is. A backslash at the end of
`p` takes the closing percent sign. -/
def loosely (x : Char) : List Char → List Char
  | [] => []
  | ['\\'] => ['%']
  | '\\' :: c :: cs => c :: loosely x cs
  | '%' :: cs => loosely x cs
  | '_' :: cs => x :: loosely x cs
  | c :: cs => c :: loosely x cs

/-- What is left of a string that starts with none of the others. -/
theorem wild_eq_false {c : Char} {cs : List Char} (hlast : c = '\\' → cs = [] → False)
    (hescape : ∀ d ds, c = '\\' → cs = d :: ds → False) (hmany : c = '%' → False)
    (hone : c = '_' → False) : wild c = false := by
  have hbackslash : c ≠ '\\' := by
    intro h
    cases cs with
    | nil => exact hlast h rfl
    | cons d ds => exact hescape d ds h rfl
  simp only [wild, List.contains_cons, List.contains_nil, Bool.or_false, Bool.or_eq_false_iff,
    beq_eq_false_iff_ne]
  exact ⟨hmany, hone, hbackslash⟩

theorem loosely_cons_plain (x : Char) {c : Char} (hc : wild c = false) (cs : List Char) :
    loosely x (c :: cs) = c :: loosely x cs := by
  simp only [wild, List.contains_cons, List.contains_nil, Bool.or_false, Bool.or_eq_false_iff,
    beq_eq_false_iff_ne] at hc
  rw [loosely]
  · exact fun h _ => hc.2.2 h
  · exact fun _ _ h _ => hc.2.2 h
  · exact fun h => hc.1 h
  · exact fun h => hc.2.1 h

theorem loosely_matches (x : Char) (p : List Char) :
    ∃ ts, parse (p ++ ['%']) = some ts ∧ matches? ts (loosely x p) = true := by
  fun_induction loosely x p with
  | case1 => exact ⟨[.many], rfl, rfl⟩
  | case2 => exact ⟨[.lit '%'], rfl, rfl⟩
  | case3 c cs ih =>
    obtain ⟨ts, hparse, hmatch⟩ := ih
    refine ⟨.lit c :: ts, ?_, ?_⟩
    · rw [List.cons_append, List.cons_append, parse, hparse]
      rfl
    · simp [matches?, hmatch]
  | case4 cs ih =>
    obtain ⟨ts, hparse, hmatch⟩ := ih
    refine ⟨.many :: ts, ?_, ?_⟩
    · rw [List.cons_append, parse, hparse]
      rfl
    · rw [matches?, anySuffix_eq_true]
      exact ⟨_, List.suffix_rfl, hmatch⟩
  | case5 cs ih =>
    obtain ⟨ts, hparse, hmatch⟩ := ih
    refine ⟨.one :: ts, ?_, ?_⟩
    · rw [List.cons_append, parse, hparse]
      rfl
    · simp [matches?, hmatch]
  | case6 c cs h₁ h₂ h₃ h₄ ih =>
    obtain ⟨ts, hparse, hmatch⟩ := ih
    refine ⟨.lit c :: ts, ?_, ?_⟩
    · rw [List.cons_append, parse_cons_plain (wild_eq_false h₁ h₂ h₃ h₄), hparse]
      rfl
    · simp [matches?, hmatch]

theorem loosely_like (x : Char) (p : List Char) : like (around p) (loosely x p) = some true := by
  obtain ⟨ts, hparse, hmatch⟩ := loosely_matches x p
  rw [like, parse_around, hparse, Option.map_some, Option.map_some, Option.some_inj, matches?,
    anySuffix_eq_true]
  exact ⟨_, List.suffix_rfl, hmatch⟩

theorem length_loosely_le (x : Char) (p : List Char) : (loosely x p).length ≤ p.length := by
  fun_induction loosely x p <;> simp only [List.length_cons, List.length_nil] at * <;> omega

/-- Only a string without wildcards is left as it is. -/
theorem plain_of_loosely_eq {x : Char} (hx : x ≠ '_') {p : List Char} (h : loosely x p = p) :
    ∀ c ∈ p, wild c = false := by
  fun_induction loosely x p with
  | case1 => simp
  | case2 => simp at h
  | case3 c cs ih =>
    have hlength := congrArg List.length h
    have hle := length_loosely_le x cs
    simp only [List.length_cons] at hlength
    omega
  | case4 cs ih =>
    have hlength := congrArg List.length h
    have hle := length_loosely_le x cs
    simp only [List.length_cons] at hlength
    omega
  | case5 cs ih => exact absurd (List.cons.inj h).1 hx
  | case6 c cs h₁ h₂ h₃ h₄ ih =>
    intro d hd
    rcases List.mem_cons.mp hd with rfl | hd
    · exact wild_eq_false h₁ h₂ h₃ h₄
    · exact ih (List.cons.inj h).2 d hd

/-- A string that the pattern matches and that does not have the substring. -/
theorem not_infix_loosely {x : Char} (hx : x ≠ '_') {p : List Char}
    (hwild : ∃ c ∈ p, wild c = true) : ¬ p <:+: loosely x p := by
  intro hinfix
  obtain ⟨c, hc, hcwild⟩ := hwild
  have heq : p = loosely x p :=
    hinfix.eq_of_length (Nat.le_antisymm hinfix.length_le (length_loosely_le x p))
  have hplain := plain_of_loosely_eq hx heq.symm c hc
  rw [hcwild] at hplain
  cases hplain

/-- A map of characters that keeps wildcards apart from the others can be applied before
or after. -/
theorem map_loosely {f : Char → Char} (hf : ∀ c w, wild w = true → (f c = w ↔ c = w)) (x : Char)
    (p : List Char) : (loosely x p).map f = loosely (f x) (p.map f) := by
  have hfix : ∀ w, wild w = true → f w = w := fun w hw => (hf w w hw).mpr rfl
  fun_induction loosely x p with
  | case1 => rfl
  | case2 =>
    simp only [List.map_cons, List.map_nil, hfix '%' rfl, hfix '\\' rfl]
    rfl
  | case3 c cs ih =>
    simp only [List.map_cons, hfix '\\' rfl, ih]
    rfl
  | case4 cs ih =>
    simp only [List.map_cons, hfix '%' rfl, ih]
    rfl
  | case5 cs ih =>
    simp only [List.map_cons, hfix '_' rfl, ih]
    rfl
  | case6 c cs h₁ h₂ h₃ h₄ ih =>
    have hplain : wild (f c) = false := by
      rw [Bool.eq_false_iff]
      intro hw
      have hc := (hf c (f c) hw).mp rfl
      rw [← hc, wild_eq_false h₁ h₂ h₃ h₄] at hw
      cases hw
    rw [List.map_cons, List.map_cons, loosely_cons_plain _ hplain, ih]

end TaskMgtApp.Lib.Like
