/-
  Syntax problems of an object literal.

  A problem is a cause; its code groups causes for the editor and its message
  is what the reader of the diagnostic sees.
-/
import AnnotatedJson.Literal.Token

namespace AnnotatedJson

/-- The groups of syntax problems. -/
inductive ErrorCode where
  | undefined
  | invalidSymbol
  | invalidNumberFormat
  | propertyExpected
  | commaExpected
  | colonExpected
  | valueExpected
  | commaOrCloseBracketExpected
  | commaOrCloseBraceExpected
  | trailingComma
  | duplicateKey
  | commentNotPermitted
  | unexpectedEndOfComment
  | unexpectedEndOfString
  | invalidEscapeCharacter
  | invalidCharacter
deriving DecidableEq, Repr, Inhabited

/-- The name of a code. -/
def ErrorCode.name : ErrorCode → String
  | .undefined => "Undefined"
  | .invalidSymbol => "InvalidSymbol"
  | .invalidNumberFormat => "InvalidNumberFormat"
  | .propertyExpected => "PropertyExpected"
  | .commaExpected => "CommaExpected"
  | .colonExpected => "ColonExpected"
  | .valueExpected => "ValueExpected"
  | .commaOrCloseBracketExpected => "CommaOrCloseBracketExpected"
  | .commaOrCloseBraceExpected => "CommaOrCloseBraceExpected"
  | .trailingComma => "TrailingComma"
  | .duplicateKey => "DuplicateKey"
  | .commentNotPermitted => "CommentNotPermitted"
  | .unexpectedEndOfComment => "UnexpectedEndOfComment"
  | .unexpectedEndOfString => "UnexpectedEndOfString"
  | .invalidEscapeCharacter => "InvalidEscapeCharacter"
  | .invalidCharacter => "InvalidCharacter"

/-- The number of a code. -/
def ErrorCode.number : ErrorCode → Nat
  | .undefined => 0
  | .invalidSymbol => 0x101
  | .invalidNumberFormat => 0x102
  | .propertyExpected => 0x201
  | .commaExpected => 0x202
  | .colonExpected => 0x203
  | .valueExpected => 0x204
  | .commaOrCloseBracketExpected => 0x205
  | .commaOrCloseBraceExpected => 0x206
  | .trailingComma => 0x207
  | .duplicateKey => 0x208
  | .commentNotPermitted => 0x209
  | .unexpectedEndOfComment => 0x301
  | .unexpectedEndOfString => 0x302
  | .invalidEscapeCharacter => 0x305
  | .invalidCharacter => 0x306

/-- Why a literal is not a JSON text. -/
inductive Problem where
  /-- Something is wrong inside a token. -/
  | fault (fault : Fault)
  | comment
  /-- No value at all. -/
  | noRoot
  /-- Something after the value. -/
  | endExpected
  | numberFormat
  | valueExpected
  | propertyExpected
  | commaExpected
  | bracketExpected
  | braceExpected
  | trailingComma
  | bareKey
  | duplicateKey
  | colonExpected
deriving DecidableEq, Repr, Inhabited

namespace Problem

/-- The code of a problem. -/
def code : Problem → ErrorCode
  | .fault .unexpectedEndOfComment => .unexpectedEndOfComment
  | .fault .unexpectedEndOfString => .unexpectedEndOfString
  | .fault .unexpectedEndOfNumber => .invalidNumberFormat
  | .fault .invalidUnicode => .invalidEscapeCharacter
  | .fault .invalidEscapeCharacter => .invalidEscapeCharacter
  | .fault .invalidCharacter => .invalidCharacter
  | .comment => .commentNotPermitted
  | .noRoot => .undefined
  | .endExpected => .undefined
  | .numberFormat => .invalidNumberFormat
  | .valueExpected => .valueExpected
  | .propertyExpected => .propertyExpected
  | .commaExpected => .commaExpected
  | .bracketExpected => .commaOrCloseBracketExpected
  | .braceExpected => .commaOrCloseBraceExpected
  | .trailingComma => .trailingComma
  | .bareKey => .undefined
  | .duplicateKey => .duplicateKey
  | .colonExpected => .colonExpected

/-- What is said about a problem. -/
def message : Problem → String
  | .fault .unexpectedEndOfComment => "Unexpected end of comment."
  | .fault .unexpectedEndOfString => "Unexpected end of string."
  | .fault .unexpectedEndOfNumber => "Unexpected end of number."
  | .fault .invalidUnicode => "Invalid unicode sequence in string."
  | .fault .invalidEscapeCharacter => "Invalid escape character in string."
  | .fault .invalidCharacter => "Invalid characters in string. Control characters must be escaped."
  | .comment => "Comments are not permitted in JSON."
  | .noRoot => "Expected a JSON object, array or literal."
  | .endExpected => "End of file expected."
  | .numberFormat => "Invalid number format."
  | .valueExpected => "Value expected"
  | .propertyExpected => "Property expected"
  | .commaExpected => "Expected comma"
  | .bracketExpected => "Expected comma or closing bracket"
  | .braceExpected => "Expected comma or closing brace"
  | .trailingComma => "Trailing comma"
  | .bareKey => "Property keys must be doublequoted"
  | .duplicateKey => "Duplicate object key"
  | .colonExpected => "Colon expected"

end Problem

/-- A problem and its place. -/
structure SyntaxError where
  problem : Problem
  span : Span
deriving DecidableEq, Repr, Inhabited

/-- The code of an error. -/
def SyntaxError.code (e : SyntaxError) : ErrorCode := e.problem.code

end AnnotatedJson
