/-
  Strict reading of JSON texts.

  A text is one value of RFC 8259 with blanks around it and nothing else:
  no comments, no trailing commas, no byte order mark, no lone surrogates, no
  raw control characters in strings.  Of several members with one name the
  last value counts, in the place of the first.

  * `Json.read? limit text` reads a text in which containers nest at most
    `limit` deep;
  * `Json.number?` reads numbers: an integer that fits 64 bits stays an integer,
    any other number becomes a double, and one too large for a double is
    refused.
-/
import AnnotatedJson.Text.Digit
import AnnotatedJson.Json.Basic

namespace AnnotatedJson.Json

/-! ## Characters -/

/-- The blanks of JSON. -/
def isSpace (c : Char) : Bool := c = ' ' || c = '\n' || c = '\t' || c = '\r'

/-- The text without leading blanks. -/
def skipSpaces (cs : Text) : Text := cs.dropWhile isSpace

/-- The number written by four hexadecimal digits, and what follows them. -/
def hex4? (cs : Text) : Option (Nat × Text) := (Text.hexCode? cs).map fun n => (n, cs.drop 4)

/-- Whether a code unit is the first half of a surrogate pair. -/
def isHighSurrogate (n : Nat) : Bool := 0xD800 ≤ n && n ≤ 0xDBFF

/-- Whether a code unit is the second half of a surrogate pair. -/
def isLowSurrogate (n : Nat) : Bool := 0xDC00 ≤ n && n ≤ 0xDFFF

/-- The character of a `\u` escape, whose digits come first: one code unit, or a
    surrogate pair written as two escapes. -/
def unicodeEscape? (cs : Text) : Option (Char × Text) := do
  let (n, rest) ← hex4? cs
  if isHighSurrogate n then
    match rest with
    | '\\' :: 'u' :: rest =>
      let (m, rest) ← hex4? rest
      if isLowSurrogate m then
        some (Char.ofNat (0x10000 + (n - 0xD800) * 0x400 + (m - 0xDC00)), rest)
      else none
    | _ => none
  else if isLowSurrogate n then none
  else some (Char.ofNat n, rest)

/-- The character of an escape, without its backslash. -/
def escape? : Text → Option (Char × Text)
  | '"' :: rest => some ('"', rest)
  | '\\' :: rest => some ('\\', rest)
  | '/' :: rest => some ('/', rest)
  | 'b' :: rest => some (Char.ofNat 8, rest)
  | 'f' :: rest => some (Char.ofNat 12, rest)
  | 'n' :: rest => some ('\n', rest)
  | 'r' :: rest => some ('\r', rest)
  | 't' :: rest => some ('\t', rest)
  | 'u' :: rest => unicodeEscape? rest
  | _ => none

/-- The content of a string literal after its opening quote; `seen` holds what
    was read, reversed. -/
def stringBody? : Nat → Text → Text → Option (Text × Text)
  | 0, _, _ => none
  | fuel + 1, seen, cs =>
    match cs with
    | [] => none
    | '"' :: rest => some (seen.reverse, rest)
    | '\\' :: rest => do
      let (c, rest) ← escape? rest
      stringBody? fuel (c :: seen) rest
    | c :: rest => if c.toNat < 0x20 then none else stringBody? fuel (c :: seen) rest

/-- The content of a string literal after its opening quote. -/
def string? (cs : Text) : Option (Text × Text) := stringBody? (cs.length + 1) [] cs

/-! ## Numbers -/

/-- The digits of `ds` appended to the significand as long as it fits 64 bits,
    with the number of digits that did not. -/
def significand (m : Nat) : Text → Nat × Nat
  | [] => (m, 0)
  | c :: ds =>
    let m' := m * 10 + (c.toNat - 48)
    if m' < 0x10000000000000000 then significand m' ds else (m, ds.length + 1)

/-- The exact powers of ten that a significand is scaled by. -/
def powerOfTen (k : Nat) : Binary64 := Binary64.ofRatio false (Nat.pow 10 k) 1

/-- A significand scaled by a power of ten.  The significand is rounded to a
    double first; a very small power is applied in steps of `10 ^ 308`.  A
    result too large for a double is refused. -/
def scaled? : Nat → Binary64 → Int → Option Binary64
  | 0, f, _ => some f
  | fuel + 1, f, k =>
    if k.natAbs ≤ 308 then
      if 0 ≤ k then
        let g := f.mul (powerOfTen k.natAbs)
        if g.isFinite then some g else none
      else some (f.div (powerOfTen k.natAbs))
    else if f.isZero then some f
    else if 0 ≤ k then none
    else scaled? fuel (f.div (powerOfTen 308)) (k + 308)

/-- The double with the given sign, significand and decimal exponent. -/
def float? (negative : Bool) (m : Nat) (k : Int) : Option Number := do
  let f ← scaled? 10 (Binary64.ofRatio false m 1) (max k (-2000))
  some (.float (if negative then f.neg else f))

/-- The exponent part, after its mark: a sign and at least one digit. -/
def exponent? (cs : Text) : Option (Int × Text) :=
  let (negative, cs) := match cs with
    | '+' :: rest => (false, rest)
    | '-' :: rest => (true, rest)
    | rest => (false, rest)
  let ds := cs.takeWhile Text.isDigit
  if ds.isEmpty then none
  else
    -- Beyond ten digits the exponent is out of any range.
    let n : Nat := Text.natOfDigits ((ds.dropWhile (· = '0')).take 11)
    some (if negative then -(n : Int) else (n : Int), cs.dropWhile Text.isDigit)

/-- A number without a fraction or an exponent. -/
def integer? (negative : Bool) (m dropped : Nat) : Option Number :=
  if dropped ≠ 0 then float? negative m dropped
  else if negative then
    if 0 < m ∧ m ≤ 0x8000000000000000 then some (.int (-(m : Int)))
    else some (.float (Binary64.ofRatio true m 1))
  else some (.int m)

/-- A number whose sign has been read. -/
def unsigned? (negative : Bool) (cs : Text) : Option (Number × Text) := do
  let ds := cs.takeWhile Text.isDigit
  let rest := cs.dropWhile Text.isDigit
  guard (!ds.isEmpty && (ds.length == 1 || ds.head? != some '0'))
  let (m, dropped) := significand 0 ds
  let (m, k, rest, fraction) ← match rest with
    | '.' :: rest =>
      let fs := rest.takeWhile Text.isDigit
      if fs.isEmpty then none
      else
        let (m', lost) := significand m fs
        some (m', (dropped : Int) - ((fs.length - lost : Nat) : Int), rest.dropWhile Text.isDigit, true)
    | rest => some (m, (dropped : Int), rest, false)
  match rest with
  | 'e' :: rest | 'E' :: rest =>
    let (x, rest) ← exponent? rest
    some (← float? negative m (k + x), rest)
  | _ =>
    if fraction then some (← float? negative m k, rest)
    else some (← integer? negative m dropped, rest)

/-- A number. -/
def number? : Text → Option (Number × Text)
  | '-' :: rest => unsigned? true rest
  | cs => unsigned? false cs

/-! ## Values -/

mutual

/-- A value at the start of the text, after blanks, with what follows it. -/
def value? : Nat → Nat → Text → Option (Json × Text)
  | 0, _, _ => none
  | fuel + 1, depth, cs =>
    match skipSpaces cs with
    | 'n' :: 'u' :: 'l' :: 'l' :: rest => some (.null, rest)
    | 't' :: 'r' :: 'u' :: 'e' :: rest => some (.bool true, rest)
    | 'f' :: 'a' :: 'l' :: 's' :: 'e' :: rest => some (.bool false, rest)
    | '"' :: rest => (string? rest).map fun (s, rest) => (.string (String.ofList s), rest)
    | '[' :: rest =>
      match depth with
      | 0 => none
      | depth + 1 =>
        match skipSpaces rest with
        | ']' :: rest => some (.array [], rest)
        | rest => items? fuel depth [] rest
    | '{' :: rest =>
      match depth with
      | 0 => none
      | depth + 1 =>
        match skipSpaces rest with
        | '}' :: rest => some (.object [], rest)
        | rest => members? fuel depth [] rest
    | cs => (number? cs).map fun (n, rest) => (.number n, rest)

/-- The items of an array up to its closing bracket; `seen` holds the earlier
    ones, reversed. -/
def items? : Nat → Nat → List Json → Text → Option (Json × Text)
  | 0, _, _, _ => none
  | fuel + 1, depth, seen, cs => do
    let (v, rest) ← value? fuel depth cs
    match skipSpaces rest with
    | ',' :: rest => items? fuel depth (v :: seen) rest
    | ']' :: rest => some (.array (v :: seen).reverse, rest)
    | _ => none

/-- The members of an object up to its closing brace; `seen` holds the earlier
    ones. -/
def members? : Nat → Nat → List (String × Json) → Text → Option (Json × Text)
  | 0, _, _, _ => none
  | fuel + 1, depth, seen, cs =>
    match skipSpaces cs with
    | '"' :: rest => do
      let (k, rest) ← string? rest
      match skipSpaces rest with
      | ':' :: rest =>
        let (v, rest) ← value? fuel depth rest
        let seen := insert (String.ofList k) v seen
        match skipSpaces rest with
        | ',' :: rest => members? fuel depth seen rest
        | '}' :: rest => some (.object seen, rest)
        | _ => none
      | _ => none
    | _ => none

end

/-- The value of a text in which containers nest at most `limit` deep. -/
def read? (limit : Nat) (cs : Text) : Option Json :=
  match value? (2 * cs.length + 2) limit cs with
  | some (v, rest) => if (skipSpaces rest).isEmpty then some v else none
  | none => none

/-- The deepest nesting of containers that is read from a schema text. -/
def nestingLimit : Nat := 127

/-- The value of a schema text. -/
def ofText? (cs : Text) : Option Json := read? nestingLimit cs

end AnnotatedJson.Json
