/-
  Tokens of an object literal.

  The tokens of JSON with comments, plus one kind for everything else: bare
  words, single-quoted and backtick strings.

  * `TokenKind` and `Fault` classify a token, `Token` places it in its text.
-/
import AnnotatedJson.Text.Basic

namespace AnnotatedJson

/-- What a token is. -/
inductive TokenKind where
  | openBrace
  | closeBrace
  | openBracket
  | closeBracket
  | comma
  | colon
  | null
  | true
  | false
  | string
  | number
  | lineComment
  | blockComment
  | unknown
  | eof
deriving DecidableEq, Repr, Inhabited

/-- The name of a kind of token. -/
def TokenKind.name : TokenKind → String
  | .openBrace => "OpenBrace"
  | .closeBrace => "CloseBrace"
  | .openBracket => "OpenBracket"
  | .closeBracket => "CloseBracket"
  | .comma => "Comma"
  | .colon => "Colon"
  | .null => "Null"
  | .true => "True"
  | .false => "False"
  | .string => "String"
  | .number => "Number"
  | .lineComment => "LineComment"
  | .blockComment => "BlockComment"
  | .unknown => "Unknown"
  | .eof => "Eof"

/-- Whether a token is a comment. -/
def TokenKind.isComment : TokenKind → Bool
  | .lineComment | .blockComment => Bool.true
  | _ => Bool.false

/-- What is wrong inside a token. -/
inductive Fault where
  | unexpectedEndOfComment
  | unexpectedEndOfString
  | unexpectedEndOfNumber
  | invalidUnicode
  | invalidEscapeCharacter
  | invalidCharacter
deriving DecidableEq, Repr, Inhabited

/-- The name of a fault. -/
def Fault.name : Fault → String
  | .unexpectedEndOfComment => "UnexpectedEndOfComment"
  | .unexpectedEndOfString => "UnexpectedEndOfString"
  | .unexpectedEndOfNumber => "UnexpectedEndOfNumber"
  | .invalidUnicode => "InvalidUnicode"
  | .invalidEscapeCharacter => "InvalidEscapeCharacter"
  | .invalidCharacter => "InvalidCharacter"

/-- A token of a text. -/
structure Token where
  kind : TokenKind
  span : Span
  /-- The content of a string with its escapes resolved, the source text of any
      other token. -/
  value : Text
  fault : Option Fault
  /-- A line feed stands between the token and the one before it. -/
  afterBreak : Bool
deriving DecidableEq, Repr, Inhabited

end AnnotatedJson
