/-
  Percent encoding.

  A byte is written as a percent sign and two hexadecimal digits.  Which
  characters have to be encoded depends on the part of a URI they stand in.

  * `Percent.encode` encodes a text, `Percent.decode` gives the bytes of one.
-/
import AnnotatedJson.Text.Digit

namespace AnnotatedJson.Percent

/-! ## Which characters are encoded -/

/-- Controls, and everything beyond ASCII. -/
def isControl (c : Char) : Bool := c.toNat < 32 || 126 < c.toNat

/-- The characters encoded in a fragment. -/
def inFragment (c : Char) : Bool := isControl c || [' ', '"', '<', '>', '`'].contains c

/-- The characters encoded in a query. -/
def inQuery (c : Char) : Bool := isControl c || [' ', '"', '#', '<', '>'].contains c

/-- The characters encoded in the query of a special scheme. -/
def inSpecialQuery (c : Char) : Bool := inQuery c || c = '\''

/-- The characters encoded in a path. -/
def inPath (c : Char) : Bool :=
  isControl c || [' ', '"', '#', '<', '>', '?', '`', '{', '}'].contains c

/-- The characters encoded in a user name or a password. -/
def inUserInfo (c : Char) : Bool :=
  inPath c || ['/', ':', ';', '=', '@', '[', '\\', ']', '^', '|'].contains c

/-! ## Encoding -/

/-- A hexadecimal digit in upper case. -/
def digit (n : Nat) : Char := if n < 10 then Char.ofNat (48 + n) else Char.ofNat (55 + n)

/-- A byte as an escape. -/
def escape (b : UInt8) : Text := ['%', digit (b.toNat / 16), digit (b.toNat % 16)]

/-- A character, escaped byte by byte if the part of the URI asks for it. -/
def encodeChar (inSet : Char → Bool) (c : Char) : Text :=
  if inSet c then (String.utf8EncodeChar c).flatMap escape else [c]

/-- A text with the characters of a set escaped. -/
def encode (inSet : Char → Bool) (cs : Text) : Text := cs.flatMap (encodeChar inSet)

/-! ## Decoding -/

/-- The bytes of a text with its escapes resolved; what is no escape stands for
    itself. -/
def bytes : Text → List UInt8
  | '%' :: a :: b :: cs =>
    match Text.hexValue? a, Text.hexValue? b with
    | some x, some y => UInt8.ofNat (x * 16 + y) :: bytes cs
    | _, _ => 37 :: bytes (a :: b :: cs)
  | c :: cs => String.utf8EncodeChar c ++ bytes cs
  | [] => []

/-- The text of some bytes, if they are UTF-8. -/
def ofBytes? (bs : List UInt8) : Option Text :=
  (String.fromUTF8? (ByteArray.mk bs.toArray)).map String.toList

/-- A text with its escapes resolved, if that is UTF-8. -/
def decode? (cs : Text) : Option Text := ofBytes? (bytes cs)

end AnnotatedJson.Percent
