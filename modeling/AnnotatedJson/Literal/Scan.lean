/-
  Cutting a text into tokens.

  Blanks and byte order marks separate tokens.  Every other character belongs
  to exactly one token, whatever the text; a token with something wrong in it
  carries its last fault.

  * `Lexeme.read` reads one token from a text that starts with it;
  * `Token.scan` cuts a whole text; the last token is always the end of input.
-/
import AnnotatedJson.Text.Blank
import AnnotatedJson.Text.Digit
import AnnotatedJson.Literal.Token

namespace AnnotatedJson

/-- A token without its place: the source text it covers and what it means. -/
structure Lexeme where
  kind : TokenKind
  source : Text
  value : Text
  fault : Option Fault
deriving DecidableEq, Repr, Inhabited

namespace Lexeme

/-- A token that stands for its own source text. -/
def plain (kind : TokenKind) (source : Text) : Lexeme := ⟨kind, source, source, none⟩

/-! ## Strings -/

/-- The character with a code; a surrogate stands for no character and becomes
    the replacement character. -/
def scalarOf (code : Nat) : Char :=
  if 0xD800 ≤ code ∧ code ≤ 0xDFFF then Char.ofNat 0xFFFD else Char.ofNat code

/-- The character of a one-letter escape. -/
def simpleEscape? (c : Char) : Option Char :=
  if c = '"' ∨ c = '\\' ∨ c = '/' then some c
  else if c = 'b' then some (Char.ofNat 8)
  else if c = 'f' then some (Char.ofNat 12)
  else if c = 'n' then some '\n'
  else if c = 'r' then some '\r'
  else if c = 't' then some '\t'
  else none

/-- Where the reader of a string stands. -/
inductive StringMode where
  /-- Among ordinary characters. -/
  | plain
  /-- After a backslash. -/
  | escape
  /-- Within a Unicode escape, before the last `n + 1` of its digits. -/
  | digits (n : Nat)
deriving DecidableEq, Repr, Inhabited

/-- The rest of a string after its opening quote.  `source` and `value` hold
    what was read, reversed.  A string that is not closed ends before the line
    break or at the end of the text. -/
def string (mode : StringMode) (source value : Text) (fault : Option Fault) : Text → Lexeme × Text
  | [] => (⟨.string, source.reverse, value.reverse, some .unexpectedEndOfString⟩, [])
  | c :: cs =>
    match mode with
    | .digits 0 => string .plain (c :: source) value fault cs
    | .digits (n + 1) => string (.digits n) (c :: source) value fault cs
    | .escape =>
      if c = 'u' then
        match Text.hexCode? cs with
        | some code => string (.digits 3) (c :: source) (scalarOf code :: value) fault cs
        | none => string .plain (c :: source) value (some .invalidUnicode) cs
      else
        match simpleEscape? c with
        | some e => string .plain (c :: source) (e :: value) fault cs
        | none => string .plain (c :: source) value (some .invalidEscapeCharacter) cs
    | .plain =>
      if c = '"' then (⟨.string, (c :: source).reverse, value.reverse, fault⟩, cs)
      else if c = '\\' then string .escape (c :: source) value fault cs
      else if c = '\n' ∨ c = '\r' then
        (⟨.string, source.reverse, value.reverse, some .unexpectedEndOfString⟩, c :: cs)
      else if Text.isControl c ∧ c ≠ '\t' then
        string .plain (c :: source) (c :: value) (some .invalidCharacter) cs
      else string .plain (c :: source) (c :: value) fault cs

/-! ## Comments -/

/-- Whether a character ends a line. -/
def isLineEnd (c : Char) : Bool := c = '\n' || c = '\r'

/-- The rest of a block comment; `source` holds what was read, reversed. -/
def blockComment (source : Text) : Text → Lexeme × Text
  | [] => ({ plain .blockComment source.reverse with fault := some .unexpectedEndOfComment }, [])
  | '*' :: '/' :: cs => (plain .blockComment ('/' :: '*' :: source).reverse, cs)
  | c :: cs => blockComment (c :: source) cs

/-! ## Numbers -/

/-- The digits before the point: a leading zero stands alone. -/
def integerPart (cs : Text) : Text × Text :=
  match cs with
  | '0' :: rest => (['0'], rest)
  | cs => (cs.takeWhile Text.isDigit, cs.dropWhile Text.isDigit)

/-- The point and its digits, if there is a point; whether digits are missing. -/
def fractionPart (cs : Text) : Text × Bool × Text :=
  match cs with
  | '.' :: rest => ('.' :: rest.takeWhile Text.isDigit, (rest.takeWhile Text.isDigit).isEmpty,
    rest.dropWhile Text.isDigit)
  | cs => ([], false, cs)

/-- The sign of an exponent, if it has one. -/
def exponentSign (cs : Text) : Text × Text :=
  match cs with
  | '+' :: rest => (['+'], rest)
  | '-' :: rest => (['-'], rest)
  | cs => ([], cs)

/-- The exponent, if there is one; whether digits are missing. -/
def exponentPart (cs : Text) : Text × Bool × Text :=
  match cs with
  | c :: rest =>
    if c = 'e' ∨ c = 'E' then
      let (sign, rest) := exponentSign rest
      let ds := rest.takeWhile Text.isDigit
      (c :: sign ++ ds, ds.isEmpty, rest.dropWhile Text.isDigit)
    else ([], false, cs)
  | [] => ([], false, [])

/-- A number after its sign. -/
def number (sign : Text) (cs : Text) : Lexeme × Text :=
  let (whole, cs) := integerPart cs
  let (fraction, cut, cs) := fractionPart cs
  let (power, cut', cs) := exponentPart cs
  let fault := if cut || cut' then some .unexpectedEndOfNumber else none
  ({ plain .number (sign ++ whole ++ fraction ++ power) with fault := fault }, cs)

/-! ## Words -/

/-- A character that continues a bare word. -/
def isWordChar (c : Char) : Bool :=
  !(Text.isBlank c || c = '{' || c = '}' || c = '[' || c = ']' || c = '"' || c = ':' || c = ',' ||
    c = '/')

/-- The rest of a string in single quotes or backticks, with what follows it.
    A backslash takes the next character along; single quotes do not reach over
    a line break. -/
def quotedTail (quote : Char) (escaped : Bool) (seen : Text) : Text → Text × Text
  | [] => (seen.reverse, [])
  | c :: cs =>
    if escaped then quotedTail quote false (c :: seen) cs
    else if c = '\\' then quotedTail quote true (c :: seen) cs
    else if isLineEnd c ∧ quote = '\'' then (seen.reverse, c :: cs)
    else if c = quote then ((c :: seen).reverse, cs)
    else quotedTail quote false (c :: seen) cs

/-- The kind of a word. -/
def wordKind (word : Text) : TokenKind :=
  if word = ['t', 'r', 'u', 'e'] then .true
  else if word = ['f', 'a', 'l', 's', 'e'] then .false
  else if word = ['n', 'u', 'l', 'l'] then .null
  else .unknown

/-- A word that starts with `c`. -/
def word (c : Char) (cs : Text) : Lexeme × Text :=
  if c = '\'' ∨ c = '`' then
    let (source, rest) := quotedTail c false [c] cs
    (plain .unknown source, rest)
  else
    let source := c :: cs.takeWhile isWordChar
    (plain (wordKind source) source, cs.dropWhile isWordChar)

/-! ## One token -/

/-- The kind of a character that is a token by itself. -/
def single? (c : Char) : Option TokenKind :=
  if c = '{' then some .openBrace
  else if c = '}' then some .closeBrace
  else if c = '[' then some .openBracket
  else if c = ']' then some .closeBracket
  else if c = ':' then some .colon
  else if c = ',' then some .comma
  else none

/-- The token that starts with `c`, which is no blank, and what follows it. -/
def read (c : Char) (cs : Text) : Lexeme × Text :=
  match single? c with
  | some kind => (plain kind [c], cs)
  | none =>
    if c = '"' then string .plain [c] [] none cs
    else if c = '/' then
      match cs with
      | '/' :: rest => (plain .lineComment ('/' :: '/' :: rest.takeWhile fun c => !isLineEnd c),
          rest.dropWhile fun c => !isLineEnd c)
      | '*' :: rest => blockComment ['*', '/'] rest
      | rest => (plain .unknown ['/'], rest)
    else if Text.isDigit c then number [] (c :: cs)
    else if c = '-' ∧ (cs.head?.any Text.isDigit) then number ['-'] cs
    else word c cs

end Lexeme

namespace Token

/-- Whether a character only separates tokens. -/
def isGap (c : Char) : Bool := Text.isBlank c || c.toNat = 0xFEFF

/-- The tokens of a text that starts at `offset`. -/
def scanFrom : Nat → Nat → Text → List Token
  | 0, _, _ => []
  | fuel + 1, offset, cs =>
    let gap := cs.takeWhile isGap
    let start := offset + Text.bytes gap
    match cs.dropWhile isGap with
    | [] => [⟨.eof, ⟨start, start⟩, [], none, gap.contains '\n'⟩]
    | c :: cs =>
      let (lexeme, rest) := Lexeme.read c cs
      let stop := start + Text.bytes lexeme.source
      ⟨lexeme.kind, ⟨start, stop⟩, lexeme.value, lexeme.fault, gap.contains '\n'⟩ ::
        scanFrom fuel stop rest

/-- The tokens of a text.  Each takes at least one character, so there are
    never more of them than characters, but for the end of input. -/
def scan (cs : Text) : List Token := scanFrom (cs.length + 1) 0 cs

end Token

end AnnotatedJson
