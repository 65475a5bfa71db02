import TaskMgtApp.Lib.Json

/-!
# What a line of JSON shows

The line of a dictionary of texts and numerals, whatever the encoder writes for a character
of a text. It is a join with double quotes of its separators, its keys and its values
(`writeLine_eq_join`). So a piece without a double quote stands in the line exactly if it
stands in one of these.
-/
namespace TaskMgtApp.Lib.Json

/-! ## Joins -/

section Joins
variable {A : Type} {q : A} {piece a b : List A}

/-- A piece without `q` does not reach across it. -/
theorem infix_append_cons_iff (hq : q ∉ piece) :
    piece <:+: a ++ q :: b ↔ piece <:+: a ∨ piece <:+: b := by
  constructor
  · intro h
    rcases List.infix_append_iff.mp h with ha | hb | ⟨l, l', rfl, hl, hl'⟩
    · exact .inl ha
    · rcases List.infix_cons_iff.mp hb with hprefix | hb
      · cases piece with
        | nil => exact .inr List.nil_infix
        | cons c cs =>
          obtain ⟨rfl, -⟩ := List.cons_prefix_cons.mp hprefix
          exact absurd List.mem_cons_self hq
      · exact .inr hb
    · cases l' with
      | nil => exact .inl (by simpa using hl.isInfix)
      | cons c cs =>
        obtain ⟨rfl, -⟩ := List.cons_prefix_cons.mp hl'
        exact absurd (List.mem_append_right _ List.mem_cons_self) hq
  · rintro (ha | hb)
    · exact List.infix_append_of_infix_left ha
    · exact List.infix_append_of_infix_right (List.infix_cons hb)

/-- A piece without the separator stands in a join exactly if it stands in one of the parts. -/
theorem infix_intercalate_iff (hq : q ∉ piece) {parts : List (List A)} (hparts : parts ≠ []) :
    piece <:+: [q].intercalate parts ↔ ∃ part ∈ parts, piece <:+: part := by
  induction parts with
  | nil => exact absurd rfl hparts
  | cons part parts ih =>
    cases parts with
    | nil => simp
    | cons part' parts =>
      rw [List.intercalate_cons_cons, List.append_assoc, List.singleton_append,
        infix_append_cons_iff hq, ih (by simp)]
      simp only [List.mem_cons, exists_eq_or_imp]

/-- Every part stands in the join. -/
theorem infix_intercalate {part : List A} {parts : List (List A)} (h : part ∈ parts) :
    part <:+: [q].intercalate parts := by
  induction parts with
  | nil => cases h
  | cons part' parts ih =>
    cases parts with
    | nil =>
      obtain rfl := List.mem_singleton.mp h
      simp only [List.intercalate_singleton, List.infix_rfl]
    | cons part'' parts =>
      rw [List.intercalate_cons_cons, List.append_assoc]
      rcases List.mem_cons.mp h with rfl | h
      · exact List.infix_append_of_infix_left List.infix_rfl
      · exact List.infix_append_of_infix_right (List.infix_append_of_infix_right (ih h))

theorem intercalate_cons {part : List A} {parts : List (List A)} (h : parts ≠ []) :
    [q].intercalate (part :: parts) = part ++ q :: [q].intercalate parts := by
  rw [List.intercalate_cons_of_ne_nil h, List.append_assoc, List.singleton_append]

end Joins

/-! ## Lines -/

/-- Texts, and scalars that are written as they are. -/
def JsonValue.isLeaf {A : Type} : JsonValue A → Bool
  | .text _ | .scalar _ => true
  | .list _ | .dict _ => false

section Lines
variable (escape : Char → List Char)

/-- A text as it is written between its quotes. -/
def escaped (s : String) : List Char := s.toList.flatMap escape

def writeLeaf : JsonValue String → List Char
  | .text s => '"' :: (escaped escape s ++ ['"'])
  | t => write String.toList t

def writeMember (f : String × JsonValue String) : List Char :=
  '"' :: (escaped escape f.1 ++ ('"' :: ':' :: ' ' :: writeLeaf escape f.2))

/-- The line after a member. -/
def writeRest : List (String × JsonValue String) → List Char
  | [] => ['\x7d']
  | f :: fields => ',' :: ' ' :: (writeMember escape f ++ writeRest fields)

/-- One line of JSON. -/
def writeLine : List (String × JsonValue String) → List Char
  | [] => ['\x7b', '\x7d']
  | f :: fields => '\x7b' :: (writeMember escape f ++ writeRest escape fields)

/-! ### Tokens -/

/-- What stands between the quotes of a member, and what comes after its last quote. -/
def memberTokens : String × JsonValue String → List (List Char) × List Char
  | (k, .text s) => ([escaped escape k, [':', ' '], escaped escape s], [])
  | (k, t) => ([escaped escape k], ':' :: ' ' :: writeLeaf escape t)

/-- What stands between the quotes after a member, which has left `last`. -/
def restTokens (last : List Char) : List (String × JsonValue String) → List (List Char)
  | [] => [last ++ ['\x7d']]
  | f :: fields =>
    (last ++ [',', ' ']) :: ((memberTokens escape f).1 ++ restTokens (memberTokens escape f).2 fields)

/-- What stands between the quotes of a line. -/
def lineTokens : List (String × JsonValue String) → List (List Char)
  | [] => [['\x7b', '\x7d']]
  | f :: fields =>
    ['\x7b'] :: ((memberTokens escape f).1 ++ restTokens escape (memberTokens escape f).2 fields)

variable {escape} {fields : List (String × JsonValue String)} {f : String × JsonValue String}
  {k s : String}

theorem restTokens_ne_nil (last : List Char) : restTokens escape last fields ≠ [] := by
  cases fields <;> simp [restTokens]

theorem lineTokens_ne_nil : lineTokens escape fields ≠ [] := by
  cases fields <;> simp [lineTokens]

theorem writeMember_eq_join (f : String × JsonValue String) {before rest : List Char}
    {parts : List (List Char)} (hparts : parts ≠ [])
    (h : (memberTokens escape f).2 ++ rest = ['"'].intercalate parts) :
    before ++ (writeMember escape f ++ rest) =
      ['"'].intercalate (before :: ((memberTokens escape f).1 ++ parts)) := by
  obtain ⟨k, t⟩ := f
  cases t <;> simp [memberTokens, writeMember, writeLeaf, intercalate_cons, hparts, ← h]

theorem writeRest_eq_join (fields : List (String × JsonValue String)) (last : List Char) :
    last ++ writeRest escape fields = ['"'].intercalate (restTokens escape last fields) := by
  induction fields generalizing last with
  | nil => rw [writeRest, restTokens, List.intercalate_singleton]
  | cons f fields ih =>
    rw [restTokens, ← writeMember_eq_join f (restTokens_ne_nil _) (ih _), writeRest]
    simp

/-- A line is the join of its tokens. -/
theorem writeLine_eq_join (fields : List (String × JsonValue String)) :
    writeLine escape fields = ['"'].intercalate (lineTokens escape fields) := by
  cases fields with
  | nil => rfl
  | cons f fields =>
    rw [lineTokens, ← writeMember_eq_join f (restTokens_ne_nil _) (writeRest_eq_join fields _)]
    rfl

/-- A piece without double quotes stands in a line exactly if it stands in a token. -/
theorem infix_writeLine_iff {piece : List Char} (hquote : '"' ∉ piece) :
    piece <:+: writeLine escape fields ↔ ∃ token ∈ lineTokens escape fields, piece <:+: token := by
  rw [writeLine_eq_join, infix_intercalate_iff hquote lineTokens_ne_nil]

/-- A text of the member, or of what follows it, is a token. -/
theorem mem_memberTokens_append (h : (k, .text s) ∈ f :: fields) {rest : List (List Char)}
    (hrest : (k, .text s) ∈ fields → escaped escape s ∈ rest) :
    escaped escape s ∈ (memberTokens escape f).1 ++ rest := by
  rcases List.mem_cons.mp h with rfl | h
  · exact List.mem_append_left _ (by simp [memberTokens])
  · exact List.mem_append_right _ (hrest h)

theorem mem_restTokens (h : (k, .text s) ∈ fields) (last : List Char) :
    escaped escape s ∈ restTokens escape last fields := by
  induction fields generalizing last with
  | nil => cases h
  | cons f fields ih =>
    exact List.mem_cons_of_mem _ (mem_memberTokens_append h fun h => ih h _)

/-- A line shows its texts. -/
theorem escaped_infix_writeLine (h : (k, .text s) ∈ fields) :
    escaped escape s <:+: writeLine escape fields := by
  rw [writeLine_eq_join]
  refine infix_intercalate ?_
  cases fields with
  | nil => cases h
  | cons f fields =>
    exact List.mem_cons_of_mem _ (mem_memberTokens_append h fun h => mem_restTokens h _)

/-! ### Characters that are not escaped -/

theorem flatMap_of_not_escaped {cs : List Char} (h : ∀ c ∈ cs, escape c = [c]) :
    cs.flatMap escape = cs := by
  induction cs with
  | nil => rfl
  | cons c cs ih =>
    rw [List.flatMap_cons, h c List.mem_cons_self, ih fun c hc => h c (List.mem_cons_of_mem _ hc)]
    rfl

/-- What is not escaped stands in a text as it is. -/
theorem infix_escaped {piece : List Char} (hpiece : ∀ c ∈ piece, escape c = [c])
    (h : piece <:+: s.toList) : piece <:+: escaped escape s := by
  obtain ⟨before, after, hs⟩ := h
  rw [escaped, ← hs, List.flatMap_append, List.flatMap_append, flatMap_of_not_escaped hpiece]
  exact List.infix_append _ _ _

end Lines

end TaskMgtApp.Lib.Json
