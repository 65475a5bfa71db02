/-!
# SQL LIKE patterns

A pattern is read once into tokens (`parse`): a percent sign is any sequence, an
underscore any one character, a backslash takes the next character as it is.
`matches?` is the match of a whole string against the tokens.
-/
namespace TaskMgtApp.Lib.Like

inductive Token where
  | lit (c : Char)
  | one
  | many
  deriving DecidableEq

/-- The tokens of a pattern, unless it ends within an escape. -/
def parse : List Char → Option (List Token)
  | [] => some []
  | ['\\'] => none
  | '\\' :: c :: cs => (parse cs).map (.lit c :: ·)
  | '%' :: cs => (parse cs).map (.many :: ·)
  | '_' :: cs => (parse cs).map (.one :: ·)
  | c :: cs => (parse cs).map (.lit c :: ·)

/-- Whether some suffix of the string passes. -/
def anySuffix (p : List Char → Bool) : List Char → Bool
  | [] => p []
  | c :: cs => p (c :: cs) || anySuffix p cs

/-- Whether the whole string matches. -/
def matches? : List Token → List Char → Bool
  | [], s => s.isEmpty
  | .lit c :: ts, s => match s with
    | [] => false
    | d :: ds => c == d && matches? ts ds
  | .one :: ts, s => match s with
    | [] => false
    | _ :: ds => matches? ts ds
  | .many :: ts, s => anySuffix (matches? ts) s

/-- `string LIKE pattern`, where the pattern is well formed. -/
def like (pattern string : List Char) : Option Bool :=
  (parse pattern).map fun ts => matches? ts string

example : like "%b_d\\%%".toList "abcd%e".toList = some true := by decide

end TaskMgtApp.Lib.Like
