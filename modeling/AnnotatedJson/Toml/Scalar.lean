/-
  Keys and scalar values of TOML.

  Each reader takes the text from where it starts and gives back what it read and
  the rest.  Values are given as JSON; a date or a time becomes an object with a
  name that no setting has.

  * `Toml.string?` reads strings of all four kinds;
  * `Toml.key?` reads a key with its dots;
  * `Toml.scalar?` reads a number, a boolean or a date.
-/
import AnnotatedJson.Json.Basic
import AnnotatedJson.Text.Digit

namespace AnnotatedJson.Toml

/-! ## Blanks -/

/-- Blanks within a line. -/
def isBlank (c : Char) : Bool := c = ' ' || c = '\t'

/-- Passes over blanks within a line. -/
def skipBlanks (cs : Text) : Text := cs.dropWhile isBlank

/-- Characters that may not stand in a comment or a string. -/
def isForbidden (c : Char) : Bool := (c.toNat < 32 && c ≠ '\t') || c.toNat = 127

/-- The end of a line. -/
def newline? : Text → Option Text
  | '\n' :: cs => some cs
  | '\r' :: '\n' :: cs => some cs
  | _ => none

/-- Passes over a comment, up to the end of the line. -/
def skipComment? : Text → Option Text
  | '#' :: cs =>
    let body := cs.takeWhile fun c => c ≠ '\n' ∧ c ≠ '\r'
    if body.any isForbidden then none else some (cs.dropWhile fun c => c ≠ '\n' ∧ c ≠ '\r')
  | cs => some cs

/-- Passes over blanks, comments and line ends. -/
def skipLines? : Nat → Text → Option Text
  | 0, cs => some cs
  | fuel + 1, cs => do
    let cs ← skipComment? (skipBlanks cs)
    match newline? cs with
    | some cs => skipLines? fuel cs
    | none => some cs

/-! ## Strings -/

/-- The character written by `n` hexadecimal digits. -/
def hexChar? (n : Nat) (cs : Text) : Option (Char × Text) := do
  let ds := cs.take n
  if ds.length < n then none
  else
    let code ← ds.foldl (fun v c => do some ((← v) * 16 + (← Text.hexValue? c))) (some 0)
    if code < 0xD800 ∨ (0xDFFF < code ∧ code < 0x110000) then some (Char.ofNat code, cs.drop n)
    else none

/-- An escape, after its backslash. -/
def escape? : Text → Option (Char × Text)
  | 'b' :: cs => some ('\x08', cs)
  | 't' :: cs => some ('\t', cs)
  | 'n' :: cs => some ('\n', cs)
  | 'f' :: cs => some ('\x0c', cs)
  | 'r' :: cs => some ('\r', cs)
  | '"' :: cs => some ('"', cs)
  | '\\' :: cs => some ('\\', cs)
  | 'u' :: cs => hexChar? 4 cs
  | 'U' :: cs => hexChar? 8 cs
  | _ => none

/-- Passes over blanks and line ends after a backslash at the end of a line. -/
def skipFolded : Nat → Text → Text
  | 0, cs => cs
  | fuel + 1, cs =>
    match cs with
    | '\n' :: cs => skipFolded fuel cs
    | '\r' :: '\n' :: cs => skipFolded fuel cs
    | c :: rest => if isBlank c then skipFolded fuel rest else c :: rest
    | [] => []

/-- Whether only blanks stand before the end of the line. -/
def isFold (cs : Text) : Bool := (newline? (skipBlanks cs)).isSome

/-- The end of a string of several lines: three quotes, after up to two that belong
    to the string. -/
def closing? (q : Char) (cs : Text) : Option (Text × Text) :=
  let quotes := cs.takeWhile (· = q)
  if quotes.length < 3 then none
  else
    let kept := min (quotes.length - 3) 2
    some (List.replicate kept q, cs.drop (kept + 3))

/-- The rest of a string; `seen` is what was read, last character first. -/
def stringRest? (q : Char) (escapes lines : Bool) : Nat → Text → Text → Option (Text × Text)
  | 0, _, _ => none
  | fuel + 1, seen, cs =>
    match lines, closing? q cs with
    | true, some (kept, rest) => some (seen.reverse ++ kept, rest)
    | _, _ =>
      match cs with
      | [] => none
      | c :: rest =>
        if c = q ∧ !lines then some (seen.reverse, rest)
        else if c = '\\' ∧ escapes then
          if lines ∧ isFold rest then
            stringRest? q escapes lines fuel seen (skipFolded rest.length rest)
          else do
            let (d, rest) ← escape? rest
            stringRest? q escapes lines fuel (d :: seen) rest
        else
          match lines, newline? cs with
          | true, some rest => stringRest? q escapes lines fuel ('\n' :: seen) rest
          | _, _ =>
            if isForbidden c then none else stringRest? q escapes lines fuel (c :: seen) rest

/-- A string: in double or single quotes, of one line or of several. -/
def string? (cs : Text) : Option (String × Text) :=
  let read (q : Char) (lines : Bool) (cs : Text) : Option (String × Text) :=
    (stringRest? q (q = '"') lines (cs.length + 1) [] cs).map fun (s, rest) => (String.ofList s, rest)
  match cs with
  | '"' :: '"' :: '"' :: rest => read '"' true ((newline? rest).getD rest)
  | '\'' :: '\'' :: '\'' :: rest => read '\'' true ((newline? rest).getD rest)
  | '"' :: rest => read '"' false rest
  | '\'' :: rest => read '\'' false rest
  | _ => none

/-! ## Keys -/

/-- Characters of a key without quotes. -/
def isKeyChar (c : Char) : Bool := c.isAlphanum || c = '_' || c = '-'

/-- One part of a key. -/
def simpleKey? (cs : Text) : Option (String × Text) :=
  match cs with
  | '"' :: '"' :: '"' :: _ | '\'' :: '\'' :: '\'' :: _ => none
  | '"' :: _ | '\'' :: _ => string? cs
  | _ =>
    let name := cs.takeWhile isKeyChar
    if name.isEmpty then none else some (String.ofList name, cs.dropWhile isKeyChar)

/-- A key with its dots. -/
def key? : Nat → Text → Option (List String × Text)
  | 0, _ => none
  | fuel + 1, cs => do
    let (name, rest) ← simpleKey? (skipBlanks cs)
    match skipBlanks rest with
    | '.' :: rest => do
      let (names, rest) ← key? fuel rest
      some (name :: names, rest)
    | rest => some ([name], rest)

/-! ## Numbers and dates -/

/-- Digits in a base, with single underscores between them. -/
def digits? (base : Nat) (cs : Text) : Option Nat :=
  let isDigit (c : Char) : Bool := (Text.hexValue? c).any (· < base)
  let ok := !cs.isEmpty && cs.head?.any isDigit && cs.getLast?.any isDigit &&
    cs.all (fun c => isDigit c || c = '_') &&
    !(cs.zip cs.tail).any fun (a, b) => a = '_' && b = '_'
  if ok then
    some ((cs.filter (· ≠ '_')).foldl (fun n c => n * base + (Text.hexValue? c).getD 0) 0)
  else none

/-- An integer of 64 bits. -/
def int64? (n : Int) : Option Json :=
  if -0x8000000000000000 ≤ n ∧ n < 0x8000000000000000 then some (.ofInt n) else none

/-- Digits without a leading zero. -/
def plainDigits? (cs : Text) : Option Nat :=
  match cs with
  | '0' :: _ :: _ => none
  | _ => digits? 10 cs

/-- An integer. -/
def integer? : Text → Option Json
  | '0' :: 'x' :: cs => (digits? 16 cs).bind fun n => int64? n
  | '0' :: 'o' :: cs => (digits? 8 cs).bind fun n => int64? n
  | '0' :: 'b' :: cs => (digits? 2 cs).bind fun n => int64? n
  | '+' :: cs => (plainDigits? cs).bind fun n => int64? n
  | '-' :: cs => (plainDigits? cs).bind fun n => int64? (-(n : Int))
  | cs => (plainDigits? cs).bind fun n => int64? n

/-- Whether a text is a number with a fraction or an exponent. -/
def isFloat (cs : Text) : Bool :=
  let body := match cs with
    | '+' :: rest | '-' :: rest => rest
    | rest => rest
  let isExponent (cs : Text) : Bool :=
    (digits? 10 (match cs with
      | '+' :: rest | '-' :: rest => rest
      | rest => rest)).isSome
  let isE (c : Char) : Bool := c = 'e' || c = 'E'
  if String.ofList body = "inf" ∨ String.ofList body = "nan" then true
  else
    let mantissa := body.takeWhile fun c => !isE c
    let exponent := body.dropWhile fun c => !isE c
    let whole := mantissa.takeWhile (· ≠ '.')
    let fraction := mantissa.dropWhile (· ≠ '.')
    (plainDigits? whole).isSome && (!fraction.isEmpty || !exponent.isEmpty) &&
      (fraction.isEmpty || (digits? 10 (fraction.drop 1)).isSome) &&
      (exponent.isEmpty || isExponent (exponent.drop 1))

/-- A number of a fixed count of digits within bounds. -/
def within? (n least most : Nat) (cs : Text) : Option Text :=
  let ds := cs.take n
  if ds.length = n ∧ ds.all Text.isDigit ∧ least ≤ Text.natOfDigits ds ∧ Text.natOfDigits ds ≤ most then
    some (cs.drop n)
  else none

/-- A character that has to follow. -/
def expect? (c : Char) (cs : Text) : Option Text :=
  match cs with
  | d :: rest => if d = c then some rest else none
  | [] => none

/-- How many days a month has. -/
def daysIn (year month : Nat) : Nat :=
  if month = 2 then
    if year % 4 = 0 ∧ (year % 100 ≠ 0 ∨ year % 400 = 0) then 29 else 28
  else if month = 4 ∨ month = 6 ∨ month = 9 ∨ month = 11 then 30
  else 31

/-- A date. -/
def date? (cs : Text) : Option Text := do
  let afterYear ← expect? '-' (← within? 4 0 9999 cs)
  let afterMonth ← expect? '-' (← within? 2 1 12 afterYear)
  let days := daysIn (Text.natOfDigits (cs.take 4)) (Text.natOfDigits (afterYear.take 2))
  within? 2 1 days afterMonth

/-- A time of day. -/
def time? (cs : Text) : Option Text := do
  let cs ← within? 2 0 60 (← expect? ':' (← within? 2 0 59 (← expect? ':' (← within? 2 0 23 cs))))
  match cs with
  | '.' :: d :: rest =>
    if Text.isDigit d then some (rest.dropWhile Text.isDigit) else none
  | cs => some cs

/-- The distance from universal time. -/
def zone? : Text → Option Text
  | 'Z' :: cs | 'z' :: cs => some cs
  | '+' :: cs | '-' :: cs => do within? 2 0 59 (← expect? ':' (← within? 2 0 23 cs))
  | cs => some cs

/-- A date, a time, or both; the rest follows. -/
def dateTime? (cs : Text) : Option Text :=
  match date? cs with
  | some rest =>
    match rest with
    | c :: more =>
      if c = 'T' ∨ c = 't' ∨ c = ' ' then
        match time? more with
        | some rest => zone? rest
        | none => if c = ' ' then some rest else none
      else some rest
    | [] => some []
  | none => time? cs

/-- Characters of a number or a word. -/
def isScalarChar (c : Char) : Bool := c.isAlphanum || ['_', '+', '-', '.', ':'].contains c

/-- The object that stands for a date or a time. -/
def dateJson (source : Text) : Json :=
  .object [("date", .string (String.ofList source))]

/-- A number, a boolean or a date. -/
def scalar? (cs : Text) : Option (Json × Text) :=
  match dateTime? cs with
  | some rest => some (dateJson (cs.take (cs.length - rest.length)), rest)
  | none =>
    let source := cs.takeWhile isScalarChar
    let rest := cs.dropWhile isScalarChar
    match String.ofList source with
    | "true" => some (.bool true, rest)
    | "false" => some (.bool false, rest)
    | _ =>
      match integer? source with
      | some v => some (v, rest)
      | none => if isFloat source then some (.number (.float (.zero false)), rest) else none

end AnnotatedJson.Toml
