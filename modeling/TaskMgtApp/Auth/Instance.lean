import TaskMgtApp.Auth.Serial
import Mathlib.Data.Fintype.Basic

/-!
# A concrete environment

The parameters of the model, instantiated: tokens are the escaped fields of
their claims, a hash is the salt and the password, and lower case is that of
ASCII. Concrete runs of the service are evaluated here; nothing general depends
on it.
-/
namespace TaskMgtApp.Auth

open TaskMgtApp.Common
open TaskMgtApp.Lib.ExpiringStore (Store)

/-! ## Tokens as text -/

/-- A field closed by a dot; dots and plus signs within it are escaped. -/
def writeField : List Char → List Char
  | [] => ['.']
  | c :: f => if c = '.' ∨ c = '+' then '+' :: c :: writeField f else c :: writeField f

/-- The first field and what follows it. -/
def readField : List Char → Option (List Char × List Char)
  | [] => none
  | '.' :: rest => some ([], rest)
  | '+' :: c :: rest => (readField rest).map fun (f, rest) => (c :: f, rest)
  | c :: rest => (readField rest).map fun (f, rest) => (c :: f, rest)

theorem readField_writeField (f rest : List Char) :
    readField (writeField f ++ rest) = some (f, rest) := by
  induction f with
  | nil => simp [writeField, readField]
  | cons c f ih =>
    by_cases hc : c = '.' ∨ c = '+'
    · simp [writeField, hc, readField, ih]
    · push Not at hc
      simp [writeField, hc, readField, ih]

def TokenType.text : TokenType → List Char
  | .access => "access".toList
  | .refresh => "refresh".toList

def TokenType.ofText (s : List Char) : TokenType :=
  if s = TokenType.refresh.text then .refresh else .access

theorem TokenType.ofText_text (t : TokenType) : TokenType.ofText t.text = t := by
  cases t <;> decide

def writeClaims (p : Claims) : String :=
  String.ofList (writeField p.sub.toList ++ (writeField p.type.text ++
    (writeField (Nat.toDigits 10 p.iat) ++ (writeField (Nat.toDigits 10 p.exp) ++
      (writeField p.jti.toList ++ [])))))

def readClaims (s : String) : Option Claims := do
  let (sub, rest) ← readField s.toList
  let (type, rest) ← readField rest
  let (iat, rest) ← readField rest
  let (exp, rest) ← readField rest
  let (jti, _) ← readField rest
  return ⟨String.ofList sub, TokenType.ofText type, Nat.ofDigitChars 10 iat 0,
    Nat.ofDigitChars 10 exp 0, String.ofList jti⟩

theorem readClaims_writeClaims (p : Claims) : readClaims (writeClaims p) = some p := by
  have hlast : readField (writeField p.jti.toList) = some (p.jti.toList, []) := by
    simpa using readField_writeField p.jti.toList []
  simp [readClaims, writeClaims, readField_writeField, hlast, TokenType.ofText_text,
    Nat.ofDigitChars_toDigits]

/-! ## The environment and an account -/

def plainEnv : Env where
  settings := Settings.default
  lower s := String.ofList (s.toList.map Char.toLower)
  hash raw salt := salt ++ "$" ++ raw
  verify raw hash := (hash.toList.dropWhile (· ≠ '$')).drop 1 == raw.toList
  encode := writeClaims
  decode := readClaims
  decode_encode := readClaims_writeClaims

/-- As `plainEnv`, with the salt of a hash written so that every salt can be told from
the password behind it. -/
def saltedEnv : Env :=
  { plainEnv with
    hash := fun raw salt => String.ofList (writeField salt.toList ++ raw.toList)
    verify := fun raw hash => match readField hash.toList with
      | some (_, rest) => rest == raw.toList
      | none => false }

theorem toLower_toLower (c : Char) : c.toLower.toLower = c.toLower := by
  by_cases h : c.val ≥ 'A'.val ∧ c.val ≤ 'Z'.val
  · have hval : c.toLower.val = c.val + 32 := congrArg Char.val (dif_pos h)
    have hnot : ¬ (c.toLower.val ≥ 'A'.val ∧ c.toLower.val ≤ 'Z'.val) := by
      rw [hval]
      simp only [ge_iff_le, UInt32.le_iff_toNat_le, UInt32.toNat_add] at h ⊢
      have hA : 'A'.val.toNat = 65 := rfl
      have hZ : 'Z'.val.toNat = 90 := rfl
      have h32 : (32 : UInt32).toNat = 32 := rfl
      rw [hA, hZ] at h ⊢
      rw [h32]
      omega
    exact dif_neg hnot
  · have hsame : c.toLower = c := dif_neg h
    rw [hsame, hsame]

theorem saltedEnv_lower (s : String) : saltedEnv.lower (saltedEnv.lower s) = saltedEnv.lower s := by
  change String.ofList ((String.ofList (s.toList.map Char.toLower)).toList.map Char.toLower) =
    String.ofList (s.toList.map Char.toLower)
  rw [String.toList_ofList, List.map_map]
  exact congrArg String.ofList (List.map_congr_left fun c _ => toLower_toLower c)

theorem saltedEnv_verify (p q salt : String) :
    saltedEnv.verify p (saltedEnv.hash q salt) = true ↔ p = q := by
  have hverify : saltedEnv.verify p (saltedEnv.hash q salt) =
      match readField (String.ofList (writeField salt.toList ++ q.toList)).toList with
      | some (_, rest) => rest == p.toList
      | none => false := rfl
  rw [hverify, String.toList_ofList, readField_writeField]
  dsimp only
  rw [beq_iff_eq, String.toList_inj]
  exact eq_comm

def ada : User where
  id := plainUuid .zero .zero
  email := "ada@example.com"
  passwordHash := plainEnv.hash "correct horse" "s0"
  fullName := "Ada"
  isEmailVerified := true
  isActive := true
  createdAt := 0
  updatedAt := 0
  deletedAt := none

/-- A world with one verified account and no token. -/
def adaAlone : World where
  now := 1000
  redis := Store.empty
  users := [ada]
  issued := []

/-- Ada has asked for two password resets. -/
def adaResetting : World where
  now := 1000
  redis := (Store.empty.setEx 1000 (pwdResetKey "x") (.text ada.id.str) 1800).setEx 1000
    (pwdResetKey "y") (.text ada.id.str) 1800
  users := [ada]
  issued := []

/-- Draws for a token pair under the number `d`. -/
def plainDraws (d : Digit) : IssueDraws := ⟨plainUuid .one d, plainUuid .two d, plainUuid .three d⟩

/-- The claims of a refresh token of Ada with the draws `d`, issued at second 1000. -/
def adaClaims (d : Digit) : Claims where
  sub := ada.id.str
  type := .refresh
  iat := 1000
  exp := 605800
  jti := (plainDraws d).refreshJti.str

/-- Ada has one live refresh token. -/
def adaLoggedIn : World where
  now := 1000
  redis := adaAlone.recordToken plainEnv ada.id (plainDraws .one)
  users := [ada]
  issued := [plainEnv.encode (adaClaims .one)]

example : (match (serve plainEnv adaAlone (.login "Ada@example.com" "correct horse" (plainDraws .one))).1 with
    | .ok (.tokenPair _ _) => true
    | _ => false) = true := by decide

end TaskMgtApp.Auth
