import TaskMgtApp.Lib.Json

/-!
# Redaction of log records

`RedactingJsonFormatter` of `app/core/logging.py` overwrites the values of sensitive
keys in one pass over the keys of a record. It does not look into the values, so
its line is free of secrets exactly if none is stored below the top level. What the
base `JsonFormatter` makes of the record is a parameter: a line that shows all of it.
-/
namespace TaskMgtApp.Log

open TaskMgtApp.Lib.Json

/-- `_REDACTED_KEYS`. -/
def redactedKeys : List String :=
  ["password", "password_hash", "hashed_password", "token", "access_token", "refresh_token",
    "authorization"]

/-- A `log_record`, in the order in which its keys were inserted. -/
abbrev LogRecord (A : Type) := List (String × JsonValue A)

section Formatter
variable {A : Type} (lower : String → String)

/-- `log_record[key] = value`. -/
def setItem (logRecord : LogRecord A) (key : String) (value : JsonValue A) : LogRecord A :=
  if key ∈ logRecord.map (·.1) then
    logRecord.map fun field => if field.1 = key then (key, value) else field
  else logRecord ++ [(key, value)]

/-- `key.lower() in _REDACTED_KEYS`. -/
def isRedacted (key : String) : Bool := redactedKeys.contains (lower key)

/-- `RedactingJsonFormatter.process_log_record`, up to the call of the base class. -/
def processLogRecord (logRecord : LogRecord A) : LogRecord A :=
  (logRecord.map (·.1)).foldl (fun record key =>
    if isRedacted lower key then setItem record key (.text "[REDACTED]") else record) logRecord

/-- The line that is written for a record; `serialize` is what the base class does. -/
def formatLine (serialize : LogRecord A → String) (logRecord : LogRecord A) : String :=
  serialize (processLogRecord lower logRecord)

/-! ## What the loop does -/

/-- One field after the loop. -/
def redactField (field : String × JsonValue A) : String × JsonValue A :=
  (field.1, if isRedacted lower field.1 then .text "[REDACTED]" else field.2)

@[simp] theorem redactField_key (field : String × JsonValue A) :
    (redactField lower field).1 = field.1 := rfl

theorem redactField_again (field : String × JsonValue A) :
    redactField lower (redactField lower field) = redactField lower field := by
  unfold redactField
  split <;> rfl

/-- One turn of the loop redacts the fields of its key. -/
theorem redact_step (record : LogRecord A) {key : String} (hkey : key ∈ record.map (·.1)) :
    (if isRedacted lower key then setItem record key (.text "[REDACTED]") else record) =
      record.map fun field => if field.1 = key then redactField lower field else field := by
  by_cases hr : isRedacted lower key = true
  · rw [if_pos hr, setItem, if_pos hkey]
    apply List.map_congr_left
    intro field _
    by_cases hf : field.1 = key
    · subst hf
      rw [if_pos rfl, if_pos rfl, redactField, if_pos hr]
    · rw [if_neg hf, if_neg hf]
  · rw [if_neg hr]
    refine (List.map_id record).symm.trans (List.map_congr_left fun field _ => ?_)
    by_cases hf : field.1 = key
    · subst hf
      rw [if_pos rfl, redactField, if_neg hr]
      rfl
    · rw [if_neg hf]
      rfl

theorem foldl_redact (keys : List String) (record : LogRecord A)
    (hkeys : ∀ key ∈ keys, key ∈ record.map (·.1)) :
    keys.foldl (fun record key =>
      if isRedacted lower key then setItem record key (.text "[REDACTED]") else record) record =
      record.map fun field => if field.1 ∈ keys then redactField lower field else field := by
  induction keys generalizing record with
  | nil => simp
  | cons key keys ih =>
    rw [List.foldl_cons, redact_step lower record (hkeys key List.mem_cons_self), ih, List.map_map]
    · apply List.map_congr_left
      intro field _
      by_cases hf : field.1 = key
      · simp [hf, redactField_again]
      · simp [hf]
    · intro k hk
      obtain ⟨field, hfield, hname⟩ := List.mem_map.mp (hkeys k (List.mem_cons_of_mem _ hk))
      refine List.mem_map.mpr ⟨_, List.mem_map_of_mem hfield, ?_⟩
      by_cases hf : field.1 = key
      · rw [if_pos hf, redactField_key, hname]
      · rw [if_neg hf, hname]

theorem processLogRecord_eq (logRecord : LogRecord A) :
    processLogRecord lower logRecord = logRecord.map (redactField lower) := by
  rw [processLogRecord, foldl_redact lower _ _ fun key hkey => hkey]
  apply List.map_congr_left
  intro field hfield
  rw [if_pos (List.mem_map_of_mem hfield)]

/-! ## When a line is free of secrets -/

/-- Where a change of the records is seen by `g` only if it is seen by `f`. -/
theorem map_congr_of_map_eq {B C D : Type} {f : B → C} {g : B → D} {l l' : List B}
    (h : ∀ b ∈ l, ∀ b', f b' = f b → g b' = g b) (hmap : l'.map f = l.map f) :
    l'.map g = l.map g := by
  induction l generalizing l' with
  | nil =>
    rw [List.map_nil, List.map_eq_nil_iff] at hmap
    rw [hmap]
  | cons b bs ih =>
    obtain ⟨b', bs', rfl, hb, hbs⟩ := List.map_eq_cons_iff.mp hmap
    rw [List.map_cons, List.map_cons, h b List.mem_cons_self b' hb,
      ih (fun c hc => h c (List.mem_cons_of_mem _ hc)) hbs]

/-- For every record, whatever `serialize` shows of it: the line is the same for all
records that differ from it only in what is stored, at any depth, under a redacted key,
if and only if no redacted key occurs inside the value of another top-level key. -/
theorem redaction_complete_iff (serialize : LogRecord A → String)
    (hserialize : Function.Injective serialize) (record : LogRecord A) :
    (∀ record', maskFields (isRedacted lower) record' = maskFields (isRedacted lower) record →
      formatLine lower serialize record' = formatLine lower serialize record) ↔
    ∀ field ∈ record, isRedacted lower field.1 = false → ¬ Exposed (isRedacted lower) field.2 := by
  simp only [maskFields_eq, formatLine, processLogRecord_eq]
  constructor
  · intro hsame field hfield hkey hexposed
    obtain ⟨k, t⟩ := field
    obtain ⟨t', hne, hmask⟩ := hexposed.exists_ne
    have hmask' : maskField (isRedacted lower) (k, t') = maskField (isRedacted lower) (k, t) := by
      simp only [maskField, hmask]
    obtain ⟨record', hmap, hseen⟩ := exists_replace hfield hmask'
    refine hseen (redactField lower) ?_ (hserialize (hsame record' hmap))
    intro heq
    simp only [redactField, hkey] at heq
    exact hne (Prod.mk.inj heq).2
  · intro hnone record' hmask
    congr 1
    refine map_congr_of_map_eq ?_ hmask
    intro field hfield field' hf
    obtain ⟨k, t⟩ := field
    obtain ⟨k', t'⟩ := field'
    obtain ⟨rfl, hvalue⟩ := Prod.mk.inj hf
    dsimp only at hvalue
    by_cases hkey : isRedacted lower k' = true
    · simp only [redactField, hkey, if_true]
    · simp only [hkey] at hvalue
      have ht : t' = t :=
        eq_of_mask_eq (hnone (k', t) hfield (by simpa using hkey)) (by simpa using hvalue)
      rw [ht]

end Formatter

/-! ### Records as JSON lines -/

def boolText : Bool → List Char
  | true => "true".toList
  | false => "false".toList

theorem scalars_boolText : Scalars boolText where
  apart a b r r' h := by
    cases a <;> cases b <;> simp_all [boolText]
  head a := by
    cases a
    · exact ⟨'f', "alse".toList, rfl, by decide⟩
    · exact ⟨'t', "rue".toList, rfl, by decide⟩

/-- A record as one line of JSON. -/
def jsonLine (record : LogRecord Bool) : String := String.ofList (write boolText (.dict record))

theorem jsonLine_injective : Function.Injective jsonLine := by
  intro record record' h
  exact JsonValue.dict.inj (write_injective scalars_boolText (String.ofList_injective h))

def asciiLower (s : String) : String := String.ofList (s.toList.map Char.toLower)

/-- What a caller logs with its secrets at the top level. -/
def flatRecord (password : String) : LogRecord Bool :=
  [("message", .text "user_logged_in"), ("Password", .text password), ("token", .text "abc.def.ghi"),
    ("user", .dict [("id", .text "keep-me"), ("active", .scalar true)])]

theorem redaction_complete_flat :
    formatLine asciiLower jsonLine (flatRecord "swordfish") =
      formatLine asciiLower jsonLine (flatRecord "hunter2") := by
  refine (redaction_complete_iff asciiLower jsonLine jsonLine_injective
    (flatRecord "hunter2")).mpr ?_ (flatRecord "swordfish") rfl
  intro field hfield hkey hexposed
  simp only [flatRecord, List.mem_cons, List.not_mem_nil, or_false] at hfield
  rcases hfield with rfl | rfl | rfl | rfl
  · cases hexposed
  · exact absurd hkey (by decide +kernel)
  · exact absurd hkey (by decide +kernel)
  · cases hexposed with
    | @secret _ k t hmem hk =>
      simp only [List.mem_cons, Prod.mk.injEq, List.not_mem_nil, or_false] at hmem
      rcases hmem with ⟨rfl, -⟩ | ⟨rfl, -⟩
      · exact absurd hk (by decide +kernel)
      · exact absurd hk (by decide +kernel)
    | @field _ k t hmem h =>
      simp only [List.mem_cons, Prod.mk.injEq, List.not_mem_nil, or_false] at hmem
      rcases hmem with ⟨-, rfl⟩ | ⟨-, rfl⟩ <;> cases h

/-- A caller logs a request body: the password in it reaches the line. -/
theorem nested_password_logged :
    let record (password : String) : LogRecord Bool :=
      [("message", .text "request_failed"),
        ("body", .dict [("email", .text "ada@example.com"), ("password", .text password)])]
    maskFields (isRedacted asciiLower) (record "hunter2") =
        maskFields (isRedacted asciiLower) (record "hunter3") ∧
      formatLine asciiLower jsonLine (record "hunter2") ≠
        formatLine asciiLower jsonLine (record "hunter3") := by
  intro record
  refine ⟨?_, ?_⟩
  · rfl
  · decide +kernel

end TaskMgtApp.Log
