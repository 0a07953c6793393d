import Mathlib.Algebra.Ring.Nat
import Mathlib.Data.Char
import Mathlib.Data.List.Lex
import Mathlib.Data.List.Sort
import Mathlib.Data.Rat.Defs
import Lionagi.Library.PyText

/-!
# JSON text

Values are written without spaces and with sorted keys, and text is measured in bytes. A string is cut down to a
number of bytes without breaking a character.
-/

inductive PyJson where
  | null
  | bool (value : Bool)
  | int (value : ℤ)
  | float (value : ℚ)
  | str (text : Text)
  | arr (items : List PyJson)
  | obj (members : List (Text × PyJson))

namespace PyJson

/-- `bool(value)` -/
def truthy : PyJson → Bool
  | .null => false
  | .bool value => value
  | .int value => value != 0
  | .float value => value != 0
  | .str text => !text.isEmpty
  | .arr items => !items.isEmpty
  | .obj members => !members.isEmpty

end PyJson

/-! ## Bytes -/

namespace PyJson

open Text

/-! ## Writing -/

def quoteMark : Char := Char.ofNat 34
def backslash : Char := Char.ofNat 92
def openBrace : Char := Char.ofNat 123
def closeBrace : Char := Char.ofNat 125

def hexDigit (n : ℕ) : Char := (Nat.toDigits 16 n).headD '0'

/-- A character inside of a string. -/
def escapeChar (c : Char) : Text :=
  if c = quoteMark ∨ c = backslash then [backslash, c]
  else if c.toNat = 8 then [backslash, 'b']
  else if c.toNat = 9 then [backslash, 't']
  else if c.toNat = 10 then [backslash, 'n']
  else if c.toNat = 12 then [backslash, 'f']
  else if c.toNat = 13 then [backslash, 'r']
  else if c.toNat < 32 then [backslash, 'u', '0', '0', hexDigit (c.toNat / 16), hexDigit (c.toNat % 16)]
  else [c]

def dumpsStr (t : Text) : Text := quoteMark :: (t.flatMap escapeChar ++ [quoteMark])

def dumpsInt : ℤ → Text
  | .ofNat n => Nat.toDigits 10 n
  | .negSucc n => '-' :: Nat.toDigits 10 (n + 1)

/-- Members in the order of their keys. -/
def sortMembers {α : Type} (members : List (Text × α)) : List (Text × α) :=
  members.insertionSort fun member other ↦ member.1 ≤ other.1

section Dumps

variable (reprFloat : ℚ → Text)

mutual

/-- `json.dumps(value, sort_keys=True, separators=(",", ":"), ensure_ascii=False)` -/
def dumps : PyJson → Text
  | .null => "null".toList
  | .bool true => "true".toList
  | .bool false => "false".toList
  | .int value => dumpsInt value
  | .float value => reprFloat value
  | .str text => dumpsStr text
  | .arr items => '[' :: (List.intercalate [','] (dumpsItems items) ++ [']'])
  | .obj members =>
    openBrace :: (List.intercalate [','] ((sortMembers (dumpsMembers members)).map Prod.snd) ++ [closeBrace])

def dumpsItems : List PyJson → List Text
  | [] => []
  | item :: items => dumps item :: dumpsItems items

/-- Each key with its member as it is written. -/
def dumpsMembers : List (Text × PyJson) → List (Text × Text)
  | [] => []
  | (key, value) :: members => (key, dumpsStr key ++ ':' :: dumps value) :: dumpsMembers members

end

/-- A character beyond ASCII, as one or two escapes of four digits. -/
def escapeUnit (n : ℕ) : Text :=
  [backslash, 'u', hexDigit (n / 4096 % 16), hexDigit (n / 256 % 16), hexDigit (n / 16 % 16), hexDigit (n % 16)]

def escapeAscii (c : Char) : Text :=
  if c.toNat < 127 then [c]
  else if c.toNat < 65536 then escapeUnit c.toNat
  else escapeUnit (55296 + (c.toNat - 65536) / 1024) ++ escapeUnit (56320 + (c.toNat - 65536) % 1024)

/-- What is written with `ensure_ascii=True`: beyond ASCII there are only characters of strings. -/
def ensureAscii (t : Text) : Text := t.flatMap escapeAscii

end Dumps

/-! ## Members -/

section Members

/-- `members.get(key)` -/
def getKey (key : Text) (members : List (Text × PyJson)) : Option PyJson :=
  (members.find? (·.1 = key)).map Prod.snd

/-- A value in a dictionary; nothing else has any. -/
def lookup (key : Text) : PyJson → Option PyJson
  | .obj members => getKey key members
  | _ => none

end Members

end PyJson
