/-
  The compact text of a JSON value.

  No blanks are written, members come in their order, and a string escapes
  quotes, backslashes and the characters below U+0020; every other character
  stands for itself.
-/
import AnnotatedJson.Text.Digit
import AnnotatedJson.Json.Basic
import AnnotatedJson.Number.Shortest

namespace AnnotatedJson.Json

/-- A character of a string literal. -/
def escapeChar (c : Char) : Text :=
  if c = '"' then ['\\', '"']
  else if c = '\\' then ['\\', '\\']
  else if c = '\n' then ['\\', 'n']
  else if c = '\r' then ['\\', 'r']
  else if c = '\t' then ['\\', 't']
  else if c.toNat = 8 then ['\\', 'b']
  else if c.toNat = 12 then ['\\', 'f']
  else if c.toNat < 0x20 then
    ['\\', 'u', '0', '0', Text.hexDigit (c.toNat / 16), Text.hexDigit (c.toNat % 16)]
  else [c]

/-- A string literal. -/
def quote (s : Text) : Text := '"' :: s.flatMap escapeChar ++ ['"']

/-- A number.  An infinity cannot be written and becomes `null`. -/
def numberText : Number → Text
  | .int n => if n < 0 then '-' :: Nat.toDigits 10 n.natAbs else Nat.toDigits 10 n.natAbs
  | .float f => f.text?.getD ['n', 'u', 'l', 'l']

mutual

/-- The compact text of a value. -/
def text : Json → Text
  | .null => ['n', 'u', 'l', 'l']
  | .bool true => ['t', 'r', 'u', 'e']
  | .bool false => ['f', 'a', 'l', 's', 'e']
  | .number n => numberText n
  | .string s => quote s.toList
  | .array [] => ['[', ']']
  | .array (x :: xs) => '[' :: (text x ++ itemsText xs)
  | .object [] => ['{', '}']
  | .object ((k, v) :: ms) => '{' :: (quote k.toList ++ ':' :: (text v ++ membersText ms))

/-- The items after the first, and the closing bracket. -/
def itemsText : List Json → Text
  | [] => [']']
  | x :: xs => ',' :: (text x ++ itemsText xs)

/-- The members after the first, and the closing brace. -/
def membersText : List (String × Json) → Text
  | [] => ['}']
  | (k, v) :: ms => ',' :: (quote k.toList ++ ':' :: (text v ++ membersText ms))

end

/-- The compact text of a value as a string. -/
def render (v : Json) : String := String.ofList (text v)

end AnnotatedJson.Json
