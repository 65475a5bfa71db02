import TaskMgtApp.Common
import TaskMgtApp.Lib.JsonLine
import TaskMgtApp.Log.Redaction
import Mathlib.Data.List.Infix

/-!
# The lines of a request

`RequestIdMiddleware` of `app/core/middleware.py` logs one record for every request:
`request_completed` with the status of the response, or `request_failed` with the
exception that has left the application, before it raises it again. The base
`JsonFormatter` and the text of a traceback are parameters: the one writes JSON with
some escapes, the other shows the parameters of the statement. A completed line shows
nothing else than fixed words and what the request brings.
-/
namespace TaskMgtApp.Log

open TaskMgtApp.Common
open TaskMgtApp.Lib.Json

/-! ## Texts within texts -/

/-- `piece in line`. -/
def Contains (line piece : String) : Prop := piece.toList <:+: line.toList

instance (line piece : String) : Decidable (Contains line piece) :=
  inferInstanceAs (Decidable (_ <:+: _))

/-- A printable ASCII character that neither JSON nor `repr` escapes. -/
def plainChar (c : Char) : Bool :=
  ' '.toNat ≤ c.toNat && c.toNat ≤ '~'.toNat && !(['"', '\\', '\x27'].contains c)

def Plain (s : String) : Prop := ∀ c ∈ s.toList, plainChar c = true

instance (s : String) : Decidable (Plain s) :=
  List.decidableBAll (fun c => plainChar c = true) s.toList

/-- A character of a JSON numeral. -/
def numeralChar (c : Char) : Bool := '0' ≤ c && c ≤ '9' || ['.', 'e', '+', '-'].contains c

/-! ## The middleware -/

/-- What a request brings to the middleware, and what the middleware draws and measures. -/
structure Arrival where
  /-- The `X-Request-ID` header. -/
  header : Option String
  uuid4 : UUID
  method : String
  path : String
  asctime : String
  /-- The numeral of `duration_ms`. -/
  durationMs : String
  durationMs_numeral : durationMs.toList.all numeralChar = true

/-- `request.headers.get(REQUEST_ID_HEADER) or str(uuid.uuid4())`. -/
def Arrival.requestId (a : Arrival) : String :=
  match a.header with
  | some id => if id = "" then a.uuid4.str else id
  | none => a.uuid4.str

/-- The fields that `configure_logging` asks for, of a record with a level and a message. -/
def formatFields (a : Arrival) (levelname message : String) : LogRecord String :=
  [("asctime", .text a.asctime), ("levelname", .text levelname), ("name", .text "app.request"),
    ("request_id", .text a.requestId), ("message", .text message)]

/-- `logger.info("request_completed", …)`. -/
def requestCompleted (a : Arrival) (statusCode : Nat) : LogRecord String :=
  formatFields a "INFO" "request_completed" ++
    [("method", .text a.method), ("path", .text a.path), ("status_code", .scalar (toString statusCode)),
      ("duration_ms", .scalar a.durationMs)]

/-- `logger.exception("request_failed", …)`. -/
def requestFailed (a : Arrival) (excInfo : String) : LogRecord String :=
  formatFields a "ERROR" "request_failed" ++
    [("exc_info", .text excInfo), ("method", .text a.method), ("path", .text a.path)]

/-- `RequestIdMiddleware.dispatch`: the records it logs, and the response with its
`X-Request-ID` header or the exception it raises again. The application answers with a
response, of which the status is read, or raises an exception with a traceback. -/
def dispatch {R E : Type} (status : R → Nat) (traceback : E → String) (a : Arrival)
    (callNext : Except E R) : List (LogRecord String) × Except E (R × String) :=
  match callNext with
  | .ok response => ([requestCompleted a (status response)], .ok (response, a.requestId))
  | .error exc => ([requestFailed a (traceback exc)], .error exc)

/-! ## The lines -/

/-- The base `JsonFormatter` writes a record as one line of JSON, where `escape` is what stands for
a character of a text; plain characters stand for themselves. -/
structure WritesJson (escape : Char → List Char) (serialize : LogRecord String → String) : Prop where
  plain : ∀ c, plainChar c = true → escape c = [c]
  line : ∀ record, (∀ field ∈ record, field.2.isLeaf) →
    (serialize record).toList = writeLine escape record

/-- The traceback of a statement error shows every plain parameter. -/
def ShowsParameters (traceback : List String → String) : Prop :=
  ∀ parameters p, p ∈ parameters → Plain p → Contains (traceback parameters) p

/-- A text as the line has it. -/
def written (escape : Char → List Char) (text : String) : String := String.ofList (escaped escape text)

section Lines
variable {escape : Char → List Char} {serialize : LogRecord String → String}
  {traceback : List String → String} {status : Nat}

theorem contains_written {text piece : String} :
    Contains (written escape text) piece ↔ piece.toList <:+: escaped escape text := by
  rw [Contains, written, String.toList_ofList]

/-- A record without sensitive keys is written as it is. -/
theorem formatLine_of_not_redacted (record : LogRecord String)
    (hkeys : (record.map (·.1)).all (fun key => !isRedacted asciiLower key) = true) :
    formatLine asciiLower serialize record = serialize record := by
  rw [formatLine, processLogRecord_eq]
  congr 1
  refine (List.map_congr_left fun field hfield => ?_).trans (List.map_id record)
  have hkey := List.all_eq_true.mp hkeys field.1 (List.mem_map_of_mem hfield)
  rw [redactField, if_neg (by simpa using hkey)]
  rfl

theorem formatLine_requestCompleted (hjson : WritesJson escape serialize) (a : Arrival) :
    (formatLine asciiLower serialize (requestCompleted a status)).toList =
      writeLine escape (requestCompleted a status) := by
  have hkeys : ["asctime", "levelname", "name", "request_id", "message", "method", "path",
      "status_code", "duration_ms"].all (fun key => !isRedacted asciiLower key) = true := by
    decide +kernel
  rw [formatLine_of_not_redacted (requestCompleted a status) hkeys]
  exact hjson.line _ (by simp [requestCompleted, formatFields, JsonValue.isLeaf])

theorem formatLine_requestFailed (hjson : WritesJson escape serialize) (a : Arrival)
    (excInfo : String) :
    (formatLine asciiLower serialize (requestFailed a excInfo)).toList =
      writeLine escape (requestFailed a excInfo) := by
  have hkeys : ["asctime", "levelname", "name", "request_id", "message", "exc_info", "method",
      "path"].all (fun key => !isRedacted asciiLower key) = true := by
    decide +kernel
  rw [formatLine_of_not_redacted (requestFailed a excInfo) hkeys]
  exact hjson.line _ (by simp [requestFailed, formatFields, JsonValue.isLeaf])

/-- The line of a failed request shows every plain parameter of the statement that failed. -/
theorem requestFailed_shows (hjson : WritesJson escape serialize)
    (htraceback : ShowsParameters traceback) (a : Arrival) {parameters : List String} {p : String}
    (hp : p ∈ parameters) (hplain : Plain p) :
    Contains (formatLine asciiLower serialize (requestFailed a (traceback parameters))) p := by
  rw [Contains, formatLine_requestFailed hjson]
  have hshown : p.toList <:+: escaped escape (traceback parameters) :=
    infix_escaped (fun c hc => hjson.plain c (hplain c hc)) (htraceback parameters p hp hplain)
  have hfield : ("exc_info", JsonValue.text (traceback parameters)) ∈
      requestFailed a (traceback parameters) := by
    simp [requestFailed]
  exact hshown.trans (escaped_infix_writeLine hfield)

/-! ### The line of a completed request -/

/-- What a request brings that its line shows. -/
def Arrival.texts (a : Arrival) : List String := [a.asctime, a.requestId, a.method, a.path]

/-- What else stands between the quotes of the line of a registration that is answered. -/
def Arrival.words (a : Arrival) : List String :=
  ["\x7b", ": ", ", ", "asctime", "levelname", "INFO", "name", "app.request", "request_id", "message",
    "request_completed", "method", "path", "status_code", ": 201, ", ": 409, ", "duration_ms",
    ": " ++ a.durationMs ++ "\x7d"]

/-- The line shows what the request brings. -/
theorem requestCompleted_shows (hjson : WritesJson escape serialize) {a : Arrival} {text : String}
    (h : text ∈ a.texts) :
    Contains (formatLine asciiLower serialize (requestCompleted a status)) (written escape text) := by
  rw [Contains, formatLine_requestCompleted hjson, written, String.toList_ofList]
  have hfield : ∃ key, (key, JsonValue.text text) ∈ requestCompleted a status := by
    simp only [Arrival.texts, List.mem_cons, List.not_mem_nil, or_false] at h
    rcases h with rfl | rfl | rfl | rfl
    · exact ⟨"asctime", by simp [requestCompleted, formatFields]⟩
    · exact ⟨"request_id", by simp [requestCompleted, formatFields]⟩
    · exact ⟨"method", by simp [requestCompleted, formatFields]⟩
    · exact ⟨"path", by simp [requestCompleted, formatFields]⟩
  obtain ⟨key, hkey⟩ := hfield
  exact escaped_infix_writeLine hkey

theorem written_plain (hjson : WritesJson escape serialize) {word : String} (h : Plain word) :
    escaped escape word = word.toList :=
  flatMap_of_not_escaped fun c hc => hjson.plain c (h c hc)

/-- Between the quotes of the line nothing else stands, but for fixed words. -/
theorem requestCompleted_tokens (hjson : WritesJson escape serialize) {a : Arrival}
    (hstatus : status ∈ [201, 409]) {P : List Char → Prop} (hwords : ∀ word ∈ a.words, P word.toList)
    (htexts : ∀ text ∈ a.texts, P (written escape text).toList) :
    ∀ token ∈ lineTokens escape (requestCompleted a status), P token := by
  have hkeys : ∀ word ∈ ["asctime", "levelname", "INFO", "name", "app.request", "request_id", "message",
      "request_completed", "method", "path", "status_code", "duration_ms"],
      escaped escape word = word.toList := by
    intro word hword
    refine written_plain hjson ?_
    revert word
    decide
  have hduration : (": " ++ a.durationMs ++ "\x7d").toList =
      ':' :: ' ' :: (a.durationMs.toList ++ ['\x7d']) := by
    simp [String.toList_append]
  have hcode : P (':' :: ' ' :: ((toString status).toList ++ [',', ' '])) := by
    simp only [List.mem_cons, List.not_mem_nil, or_false] at hstatus
    rcases hstatus with rfl | rfl
    · exact hwords ": 201, " (by simp [Arrival.words])
    · exact hwords ": 409, " (by simp [Arrival.words])
  simp only [Arrival.words, Arrival.texts, List.forall_mem_cons, written, String.toList_ofList,
    hduration] at hwords htexts hkeys
  simp only [requestCompleted, formatFields, lineTokens, restTokens, memberTokens, List.cons_append,
    List.nil_append, List.forall_mem_cons, writeLeaf, write, hkeys]
  obtain ⟨hopen, hcolon, hcomma, hwords⟩ := hwords
  change P ['\x7b'] at hopen
  change P [':', ' '] at hcolon
  change P [',', ' '] at hcomma
  simp only [hopen, hcolon, hcomma, hcode, hwords, htexts, true_and]
  exact List.forall_mem_nil P

/-- Some text that the request brings contains the piece, as the line has it. -/
def Arrival.Brings (escape : Char → List Char) (a : Arrival) (piece : String) : Prop :=
  ∃ text ∈ a.texts, Contains (written escape text) piece

instance (a : Arrival) (piece : String) : Decidable (a.Brings escape piece) :=
  inferInstanceAs (Decidable (∃ text ∈ a.texts, _))

/-- The line shows no piece between quotes that neither the request brings nor a fixed word has. -/
theorem requestCompleted_hides (hjson : WritesJson escape serialize) {a : Arrival}
    (hstatus : status ∈ [201, 409]) {piece : String} (hquote : '"' ∉ piece.toList)
    (hbrings : ¬ a.Brings escape piece) (hwords : ∀ word ∈ a.words, ¬ Contains word piece) :
    ¬ Contains (formatLine asciiLower serialize (requestCompleted a status)) piece := by
  rw [Contains, formatLine_requestCompleted hjson, infix_writeLine_iff hquote]
  rintro ⟨token, htoken, hin⟩
  refine requestCompleted_tokens (P := fun token => ¬ piece.toList <:+: token) hjson hstatus hwords ?_
    token htoken hin
  exact fun text htext hin => hbrings ⟨text, htext, hin⟩

/-! ### What no fixed word shows -/

/-- The piece has a dollar sign, or letters of both cases. -/
def telling (piece : List Char) : Bool :=
  piece.contains '$' || (piece.any fun c => 'A' ≤ c && c ≤ 'Z') && piece.any fun c => 'a' ≤ c && c ≤ 'z'

theorem telling_of_infix {piece word : List Char} (h : piece <:+: word) (ht : telling piece = true) :
    telling word = true := by
  have hany : ∀ p : Char → Bool, piece.any p = true → word.any p = true := by
    intro p hp
    obtain ⟨c, hc, hpc⟩ := List.any_eq_true.mp hp
    exact List.any_eq_true.mpr ⟨c, h.subset hc, hpc⟩
  unfold telling at ht ⊢
  rw [Bool.or_eq_true, Bool.and_eq_true] at ht ⊢
  rcases ht with hdollar | ⟨hupper, hlower⟩
  · exact .inl (List.elem_eq_true_of_mem (h.subset (List.mem_of_elem_eq_true hdollar)))
  · exact .inr ⟨hany _ hupper, hany _ hlower⟩

/-- Neither a dollar sign nor a capital. -/
def smallChar (c : Char) : Bool := c ≠ '$' && !('A' ≤ c && c ≤ 'Z')

theorem smallChar_of_numeralChar {c : Char} (h : numeralChar c = true) : smallChar c = true := by
  rw [numeralChar, Bool.or_eq_true] at h
  rcases h with hdigit | hother
  · have hnine : c ≤ '9' := of_decide_eq_true (Bool.and_eq_true_iff.mp hdigit).2
    have hcapital : ¬ 'A' ≤ c := fun hle => absurd (Char.le_trans hle hnine) (by decide)
    have hdollar : c ≠ '$' := by
      rintro rfl
      revert hdigit
      decide
    simp [smallChar, hdollar, hcapital]
  · simp only [List.contains_iff_mem, List.mem_cons, List.not_mem_nil, or_false] at hother
    rcases hother with rfl | rfl | rfl | rfl <;> decide

theorem not_telling_of_small {word : List Char} (h : word.all smallChar = true) :
    telling word = false := by
  have hsmall : ∀ c ∈ word, c ≠ '$' ∧ ('A' ≤ c && c ≤ 'Z') = false := by
    intro c hc
    simpa only [smallChar, Bool.and_eq_true, decide_eq_true_eq, Bool.not_eq_true'] using
      List.all_eq_true.mp h c hc
  rw [telling, Bool.or_eq_false_iff, Bool.and_eq_false_iff]
  refine ⟨?_, .inl ?_⟩
  · exact Bool.eq_false_iff.mpr fun hc => (hsmall _ (List.contains_iff_mem.mp hc)).1 rfl
  · exact List.any_eq_false.mpr fun c hc => Bool.eq_false_iff.mp (hsmall c hc).2

/-- No fixed word of a line is telling. -/
theorem not_telling_words (a : Arrival) : ∀ word ∈ a.words, telling word.toList = false := by
  have hnumeral : a.durationMs.toList.all smallChar = true := by
    refine List.all_eq_true.mpr fun c hc => smallChar_of_numeralChar ?_
    exact List.all_eq_true.mp a.durationMs_numeral c hc
  have hduration : telling (": " ++ a.durationMs ++ "\x7d").toList = false := by
    refine not_telling_of_small ?_
    rw [String.toList_append, String.toList_append, List.all_append, List.all_append, hnumeral]
    decide
  simp only [Arrival.words, List.forall_mem_cons, hduration]
  decide

/-- A telling secret without double quotes is in the line only if the request brings it. -/
theorem requestCompleted_hides_telling (hjson : WritesJson escape serialize) {a : Arrival}
    (hstatus : status ∈ [201, 409]) {secret : String} (htelling : telling secret.toList = true)
    (hquote : '"' ∉ secret.toList) (hbrings : ¬ a.Brings escape secret) :
    ¬ Contains (formatLine asciiLower serialize (requestCompleted a status)) secret := by
  refine requestCompleted_hides hjson hstatus hquote hbrings fun word hword hcontains => ?_
  have hword' := telling_of_infix hcontains htelling
  rw [not_telling_words a word hword] at hword'
  cases hword'

end Lines

/-! ### A formatter -/

/-- Quotes and backslashes are escaped. -/
def escapeQuotes (c : Char) : List Char := if c = '"' ∨ c = '\\' then ['\\', c] else [c]

def quotesLine (record : LogRecord String) : String := String.ofList (writeLine escapeQuotes record)

theorem writesJson_quotesLine : WritesJson escapeQuotes quotesLine where
  plain c hc := by
    have hnot : ¬ (c = '"' ∨ c = '\\') := by
      rintro (rfl | rfl) <;> revert hc <;> decide
    rw [escapeQuotes, if_neg hnot]
  line record _ := by rw [quotesLine, String.toList_ofList]

/-- The end of a traceback: the parameters as SQLAlchemy lists them. -/
def statementTraceback (parameters : List String) : String :=
  "Traceback (most recent call last): sqlalchemy.exc.DBAPIError: [parameters: (" ++
    parameters.foldr (fun p rest => "'" ++ p ++ "', " ++ rest) ")]"

theorem contains_append_left {s t piece : String} (h : Contains s piece) : Contains (s ++ t) piece := by
  rw [Contains, String.toList_append]
  exact List.infix_append_of_infix_left h

theorem contains_append_right {s t piece : String} (h : Contains t piece) : Contains (s ++ t) piece := by
  rw [Contains, String.toList_append]
  exact List.infix_append_of_infix_right h

theorem showsParameters_statementTraceback : ShowsParameters statementTraceback := by
  intro parameters p hp _
  refine contains_append_right ?_
  induction parameters with
  | nil => cases hp
  | cons q qs ih =>
    rw [List.foldr_cons]
    rcases List.mem_cons.mp hp with rfl | hmem
    · exact contains_append_left (contains_append_left (contains_append_right List.infix_rfl))
    · exact contains_append_right (ih hmem)

end TaskMgtApp.Log
