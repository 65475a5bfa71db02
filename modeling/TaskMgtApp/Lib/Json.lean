import Mathlib.Data.List.Basic
import Mathlib.Logic.Function.Basic

/-!
# Trees of texts, lists and dictionaries

The data that a JSON text stands for, over any type of scalars. `mask` forgets what
is stored under a secret key, at any depth, so that two trees with the same mask
agree everywhere else. `write` is their JSON text; it can be read back in one way only
(`write_injective`), if the texts of the scalars can.
-/
namespace TaskMgtApp.Lib.Json

inductive JsonValue (A : Type) where
  | text (s : String)
  | scalar (a : A)
  | list (items : List (JsonValue A))
  | dict (fields : List (String × JsonValue A))

variable {A : Type}

/-! ## Secrets -/

section Mask
variable (secret : String → Bool)

mutual

/-- The tree without what is stored under a secret key. -/
def mask : JsonValue A → JsonValue A
  | .text s => .text s
  | .scalar a => .scalar a
  | .list items => .list (maskItems items)
  | .dict fields => .dict (maskFields fields)

def maskItems : List (JsonValue A) → List (JsonValue A)
  | [] => []
  | t :: items => mask t :: maskItems items

def maskFields : List (String × JsonValue A) → List (String × JsonValue A)
  | [] => []
  | (k, t) :: fields => (k, if secret k then .text "" else mask t) :: maskFields fields

end

/-- A secret key occurs somewhere in the tree. -/
inductive Exposed : JsonValue A → Prop
  | item {items : List (JsonValue A)} {t : JsonValue A} (hmem : t ∈ items) (h : Exposed t) :
      Exposed (.list items)
  | secret {fields : List (String × JsonValue A)} {k : String} {t : JsonValue A}
      (hmem : (k, t) ∈ fields) (hk : secret k = true) : Exposed (.dict fields)
  | field {fields : List (String × JsonValue A)} {k : String} {t : JsonValue A}
      (hmem : (k, t) ∈ fields) (h : Exposed t) : Exposed (.dict fields)

/-- One field without its secrets. -/
def maskField (f : String × JsonValue A) : String × JsonValue A :=
  (f.1, if secret f.1 then .text "" else mask secret f.2)

theorem maskItems_eq (items : List (JsonValue A)) :
    maskItems secret items = items.map (mask secret) := by
  induction items with
  | nil => rw [maskItems, List.map_nil]
  | cons t items ih => rw [maskItems, ih, List.map_cons]

theorem maskFields_eq (fields : List (String × JsonValue A)) :
    maskFields secret fields = fields.map (maskField secret) := by
  induction fields with
  | nil => rw [maskFields, List.map_nil]
  | cons f fields ih =>
    obtain ⟨k, t⟩ := f
    rw [maskFields, ih, List.map_cons, maskField]

end Mask

/-- Induction over a tree, with the hypothesis for every child of a node. -/
@[elab_as_elim]
theorem JsonValue.children_induction {P : JsonValue A → Prop} (text : ∀ s, P (.text s))
    (scalar : ∀ a, P (.scalar a)) (list : ∀ items, (∀ t ∈ items, P t) → P (.list items))
    (dict : ∀ fields, (∀ f ∈ fields, P f.2) → P (.dict fields)) (t : JsonValue A) : P t := by
  refine mask.induct P (fun fields => ∀ f ∈ fields, P f.2) (fun items => ∀ t ∈ items, P t)
    text scalar list dict ?_ ?_ ?_ ?_ t
  · exact fun t ht => by cases ht
  · exact fun t items ht hitems => List.forall_mem_cons.mpr ⟨ht, hitems⟩
  · exact fun f hf => by cases hf
  · exact fun k t fields ht hfields => List.forall_mem_cons.mpr ⟨ht, hfields⟩

section Exposure
variable {secret : String → Bool} {t t' : JsonValue A}

/-- A tree without secret keys is its own mask. -/
theorem mask_of_not_exposed (h : ¬ Exposed secret t) : mask secret t = t := by
  induction t using JsonValue.children_induction with
  | text s => rw [mask]
  | scalar a => rw [mask]
  | list items ih =>
    rw [mask, maskItems_eq]
    congr 1
    refine (List.map_congr_left fun t ht => ?_).trans (List.map_id items)
    exact ih t ht fun hexposed => h (.item ht hexposed)
  | dict fields ih =>
    rw [mask, maskFields_eq]
    congr 1
    refine (List.map_congr_left fun f hf => ?_).trans (List.map_id fields)
    obtain ⟨k, t⟩ := f
    have hk : secret k ≠ true := fun hk => h (.secret hf hk)
    rw [maskField, if_neg hk, ih (k, t) hf fun hexposed => h (.field hf hexposed)]
    rfl

/-- The mask keeps the keys. -/
theorem Exposed.mask (h : Exposed secret t) : Exposed secret (mask secret t) := by
  induction h with
  | item hmem _ ih =>
    rw [Json.mask, maskItems_eq]
    exact .item (List.mem_map_of_mem hmem) ih
  | @secret fields k t hmem hk =>
    rw [Json.mask, maskFields_eq]
    exact .secret (List.mem_map_of_mem (f := maskField secret) hmem) hk
  | @field fields k t hmem _ ih =>
    rw [Json.mask, maskFields_eq]
    have hmem' := List.mem_map_of_mem (f := maskField secret) hmem
    by_cases hk : secret k = true
    · exact .secret hmem' hk
    · rw [maskField, if_neg hk] at hmem'
      exact .field hmem' ih

/-- A tree without secret keys is determined by its mask. -/
theorem eq_of_mask_eq (h : ¬ Exposed secret t) (hmask : mask secret t' = mask secret t) : t' = t := by
  have ht := mask_of_not_exposed h
  have h' : ¬ Exposed secret t' := by
    intro hexposed
    have hm := hexposed.mask
    rw [hmask, ht] at hm
    exact h hm
  rw [← mask_of_not_exposed h', hmask, ht]

/-- A list may be changed in one place, so that only what sees the change there does. -/
theorem exists_replace {B C : Type} {f : B → C} {l : List B} {b b' : B} (hb : b ∈ l)
    (hf : f b' = f b) :
    ∃ l' : List B, l'.map f = l.map f ∧
      ∀ {D : Type} (g : B → D), g b' ≠ g b → l'.map g ≠ l.map g := by
  obtain ⟨l₁, l₂, rfl⟩ := List.append_of_mem hb
  refine ⟨l₁ ++ b' :: l₂, ?_, ?_⟩
  · rw [List.map_append, List.map_append, List.map_cons, List.map_cons, hf]
  · intro D g hg heq
    rw [List.map_append, List.map_append, List.map_cons, List.map_cons] at heq
    exact hg (List.cons.inj (List.append_cancel_left heq)).1

theorem exists_text_ne (t : JsonValue A) : ∃ s, JsonValue.text s ≠ t := by
  by_cases h : JsonValue.text "" = t
  · refine ⟨"0", fun h0 => ?_⟩
    have hs := JsonValue.text.inj (h.trans h0.symm)
    revert hs
    decide
  · exact ⟨"", h⟩

/-- What is under a secret key can be changed without changing the mask. -/
theorem exists_mask_field {k : String} (hk : secret k = true) (t : JsonValue A) :
    ∃ t', (k, t') ≠ (k, t) ∧ maskField secret (k, t') = maskField secret (k, t) := by
  obtain ⟨s, hs⟩ := exists_text_ne t
  refine ⟨.text s, fun h => hs (Prod.mk.inj h).2, ?_⟩
  simp only [maskField, hk, if_true]

/-- An exposed secret can be changed without changing the mask. -/
theorem Exposed.exists_ne (h : Exposed secret t) :
    ∃ t', t' ≠ t ∧ Json.mask secret t' = Json.mask secret t := by
  induction h with
  | @item items t hmem _ ih =>
    obtain ⟨t', hne, hmask⟩ := ih
    obtain ⟨items', hmap, hne'⟩ := exists_replace hmem hmask
    refine ⟨.list items', fun heq => hne' id hne (by rw [JsonValue.list.inj heq]), ?_⟩
    rw [Json.mask, Json.mask, maskItems_eq, maskItems_eq, hmap]
  | @secret fields k t hmem hk =>
    obtain ⟨t', hne, hmask⟩ := exists_mask_field hk t
    obtain ⟨fields', hmap, hne'⟩ := exists_replace hmem hmask
    refine ⟨.dict fields', fun heq => hne' id hne (by rw [JsonValue.dict.inj heq]), ?_⟩
    rw [Json.mask, Json.mask, maskFields_eq, maskFields_eq, hmap]
  | @field fields k t hmem _ ih =>
    obtain ⟨t', hne, hmask⟩ := ih
    have hfield : maskField secret (k, t') = maskField secret (k, t) := by
      simp only [maskField, hmask]
    obtain ⟨fields', hmap, hne'⟩ := exists_replace hmem hfield
    refine ⟨.dict fields', fun heq => hne' Prod.snd hne (by rw [JsonValue.dict.inj heq]), ?_⟩
    rw [Json.mask, Json.mask, maskFields_eq, maskFields_eq, hmap]

end Exposure

/-! ## JSON text -/

/-- A text in quotes, with quotes and backslashes escaped. -/
def writeText : List Char → List Char
  | [] => ['"']
  | c :: cs => if c = '"' ∨ c = '\\' then '\\' :: c :: writeText cs else c :: writeText cs

section Write
variable (scalar : A → List Char)

mutual

/-- The JSON text of a tree. -/
def write : JsonValue A → List Char
  | .text s => '"' :: writeText s.toList
  | .scalar a => scalar a
  | .list items => '[' :: writeItems true items
  | .dict fields => '\x7b' :: writeFields true fields

def writeItems : Bool → List (JsonValue A) → List Char
  | _, [] => [']']
  | first, t :: items =>
    (if first then [] else [',', ' ']) ++ (write t ++ writeItems false items)

def writeFields : Bool → List (String × JsonValue A) → List Char
  | _, [] => ['\x7d']
  | first, (k, t) :: fields =>
    (if first then [] else [',', ' ']) ++
      ('"' :: (writeText k.toList ++ (':' :: ' ' :: (write t ++ writeFields false fields))))

end

/-- The texts of scalars can be told apart, whatever follows, and from the other trees. -/
structure Scalars : Prop where
  apart : ∀ a b r r', scalar a ++ r = scalar b ++ r' → a = b ∧ r = r'
  head : ∀ a, ∃ c cs, scalar a = c :: cs ∧ c ∉ ['"', '[', '\x7b', ']']

variable {scalar : A → List Char}

theorem writeText_apart {s s' : List Char} {r r' : List Char}
    (h : writeText s ++ r = writeText s' ++ r') : s = s' ∧ r = r' := by
  induction s generalizing s' with
  | nil =>
    cases s' with
    | nil => exact ⟨rfl, (List.cons.inj h).2⟩
    | cons c' cs' =>
      by_cases hc' : c' = '"' ∨ c' = '\\'
      · simp [writeText, hc'] at h
      · simp only [writeText, hc', if_false, List.cons_append] at h
        exact absurd (.inl (List.cons.inj h).1.symm) hc'
  | cons c cs ih =>
    cases s' with
    | nil =>
      by_cases hc : c = '"' ∨ c = '\\'
      · simp [writeText, hc] at h
      · simp only [writeText, hc, if_false, List.cons_append] at h
        exact absurd (.inl (List.cons.inj h).1) hc
    | cons c' cs' =>
      by_cases hc : c = '"' ∨ c = '\\'
      · by_cases hc' : c' = '"' ∨ c' = '\\'
        · simp only [writeText, hc, hc', if_true, List.cons_append, List.cons.injEq, true_and] at h
          obtain ⟨rfl, h⟩ := h
          obtain ⟨rfl, hr⟩ := ih h
          exact ⟨rfl, hr⟩
        · simp only [writeText, hc, hc', if_true, if_false, List.cons_append, List.cons.injEq] at h
          exact absurd (.inr h.1.symm) hc'
      · by_cases hc' : c' = '"' ∨ c' = '\\'
        · simp only [writeText, hc, hc', if_true, if_false, List.cons_append, List.cons.injEq] at h
          exact absurd (.inr h.1) hc
        · simp only [writeText, hc, hc', if_false, List.cons_append, List.cons.injEq] at h
          obtain ⟨rfl, h⟩ := h
          obtain ⟨rfl, hr⟩ := ih h
          exact ⟨rfl, hr⟩

/-- What a text can be read back as. -/
def Apart (scalar : A → List Char) (t : JsonValue A) : Prop :=
  ∀ t' r r', write scalar t ++ r = write scalar t' ++ r' → t = t' ∧ r = r'

/-- A scalar starts as no other tree does. -/
theorem Scalars.ne (hscalar : Scalars scalar) (a : A) {c : Char} (hc : c ∈ ['"', '[', '\x7b', ']'])
    (r r' : List Char) : scalar a ++ r ≠ c :: r' := by
  intro h
  obtain ⟨c', cs, hcs, hnot⟩ := hscalar.head a
  rw [hcs, List.cons_append] at h
  exact hnot ((List.cons.inj h).1 ▸ hc)

/-- No tree starts as a list ends. -/
theorem write_ne_bracket (hscalar : Scalars scalar) (t : JsonValue A) (r r' : List Char) :
    write scalar t ++ r ≠ ']' :: r' := by
  intro h
  cases t with
  | text s => simp [write] at h
  | scalar a =>
    rw [write] at h
    exact hscalar.ne a (by simp) _ _ h
  | list items => simp [write] at h
  | dict fields => simp [write] at h

theorem writeItems_apart (hscalar : Scalars scalar) {items : List (JsonValue A)}
    (hitems : ∀ t ∈ items, Apart scalar t) {first : Bool} {items' : List (JsonValue A)}
    {r r' : List Char}
    (h : writeItems scalar first items ++ r = writeItems scalar first items' ++ r') :
    items = items' ∧ r = r' := by
  induction items generalizing first items' with
  | nil =>
    cases items' with
    | nil => exact ⟨rfl, by simpa [writeItems] using h⟩
    | cons t' items' =>
      cases first with
      | true =>
        simp only [writeItems, if_true, List.nil_append, List.append_assoc] at h
        exact absurd h.symm (write_ne_bracket hscalar t' _ _)
      | false => simp [writeItems] at h
  | cons t items ih =>
    cases items' with
    | nil =>
      cases first with
      | true =>
        simp only [writeItems, if_true, List.nil_append, List.append_assoc] at h
        exact absurd h (write_ne_bracket hscalar t _ _)
      | false => simp [writeItems] at h
    | cons t' items' =>
      simp only [writeItems, List.append_assoc] at h
      obtain ⟨ht, hrest⟩ := hitems t List.mem_cons_self t' _ _ (List.append_cancel_left h)
      obtain ⟨hitems', hr⟩ := ih (fun t ht => hitems t (List.mem_cons_of_mem _ ht)) hrest
      exact ⟨by rw [ht, hitems'], hr⟩

theorem writeFields_apart {fields : List (String × JsonValue A)}
    (hfields : ∀ f ∈ fields, Apart scalar f.2) {first : Bool}
    {fields' : List (String × JsonValue A)} {r r' : List Char}
    (h : writeFields scalar first fields ++ r = writeFields scalar first fields' ++ r') :
    fields = fields' ∧ r = r' := by
  induction fields generalizing first fields' with
  | nil =>
    cases fields' with
    | nil => exact ⟨rfl, by simpa [writeFields] using h⟩
    | cons f' fields' =>
      obtain ⟨k', t'⟩ := f'
      cases first <;> simp [writeFields] at h
  | cons f fields ih =>
    obtain ⟨k, t⟩ := f
    cases fields' with
    | nil => cases first <;> simp [writeFields] at h
    | cons f' fields' =>
      obtain ⟨k', t'⟩ := f'
      simp only [writeFields, List.append_assoc, List.cons_append] at h
      obtain ⟨hk, hvalue⟩ := writeText_apart (List.cons.inj (List.append_cancel_left h)).2
      simp only [List.cons.injEq, true_and] at hvalue
      obtain ⟨ht, hrest⟩ := hfields (k, t) List.mem_cons_self t' _ _ hvalue
      obtain ⟨hfields', hr⟩ := ih (fun f hf => hfields f (List.mem_cons_of_mem _ hf)) hrest
      rw [String.toList_inj.mp hk, show t = t' from ht, hfields']
      exact ⟨rfl, hr⟩

theorem write_apart (hscalar : Scalars scalar) (t : JsonValue A) : Apart scalar t := by
  induction t using JsonValue.children_induction with
  | text s =>
    intro t' r r' h
    cases t' with
    | text s' =>
      simp only [write, List.cons_append, List.cons.injEq, true_and] at h
      obtain ⟨hs, hr⟩ := writeText_apart h
      rw [String.toList_inj.mp hs]
      exact ⟨rfl, hr⟩
    | scalar a' =>
      rw [write, write] at h
      exact absurd h.symm (hscalar.ne a' (by simp) _ _)
    | list items' => simp [write] at h
    | dict fields' => simp [write] at h
  | scalar a =>
    intro t' r r' h
    cases t' with
    | scalar a' =>
      rw [write, write] at h
      obtain ⟨rfl, hr⟩ := hscalar.apart a a' r r' h
      exact ⟨rfl, hr⟩
    | text s' =>
      rw [write, write] at h
      exact absurd h (hscalar.ne a (by simp) _ _)
    | list items' =>
      rw [write, write] at h
      exact absurd h (hscalar.ne a (by simp) _ _)
    | dict fields' =>
      rw [write, write] at h
      exact absurd h (hscalar.ne a (by simp) _ _)
  | list items ih =>
    intro t' r r' h
    cases t' with
    | list items' =>
      simp only [write, List.cons_append, List.cons.injEq, true_and] at h
      obtain ⟨rfl, hr⟩ := writeItems_apart hscalar ih h
      exact ⟨rfl, hr⟩
    | scalar a' =>
      rw [write, write] at h
      exact absurd h.symm (hscalar.ne a' (by simp) _ _)
    | text s' => simp [write] at h
    | dict fields' => simp [write] at h
  | dict fields ih =>
    intro t' r r' h
    cases t' with
    | dict fields' =>
      simp only [write, List.cons_append, List.cons.injEq, true_and] at h
      obtain ⟨rfl, hr⟩ := writeFields_apart ih h
      exact ⟨rfl, hr⟩
    | scalar a' =>
      rw [write, write] at h
      exact absurd h.symm (hscalar.ne a' (by simp) _ _)
    | text s' => simp [write] at h
    | list items' => simp [write] at h

/-- The text of a tree determines the tree. -/
theorem write_injective (hscalar : Scalars scalar) : Function.Injective (write scalar) := by
  intro t t' h
  exact (write_apart hscalar t t' [] [] (by rw [h])).1

end Write

end TaskMgtApp.Lib.Json
