/-
  Diagnostics.

  * `Literal.diagnostics` reports the syntax errors of a literal; a repeated key
    is a warning, all else is an error.
-/
import AnnotatedJson.Literal.Node
import AnnotatedJson.Protocol.Basic

namespace AnnotatedJson

/-- How bad a diagnostic is. -/
inductive Severity where
  | error
  | warning
deriving DecidableEq, Repr, Inhabited

/-- The number of a severity. -/
def Severity.number : Severity → Nat
  | .error => 1
  | .warning => 2

/-- A message about a range of a document. -/
structure Diagnostic where
  range : Range
  severity : Option Severity := none
  code : Option Nat := none
  source : Option String := none
  message : String
deriving DecidableEq, Repr, Inhabited

/-- The object form of a diagnostic. -/
def Diagnostic.toJson (d : Diagnostic) : Json :=
  .ofFields [("range", some d.range.toJson),
    ("severity", d.severity.map fun s => .ofNat s.number),
    ("code", d.code.map .ofNat),
    ("source", d.source.map .string),
    ("message", some (.string d.message))]

/-- The source named by syntax diagnostics. -/
def Diagnostic.syntaxSource : String := "amis-json"

/-- The diagnostic of a syntax error. -/
def SyntaxError.diagnostic (index : LineIndex) (e : SyntaxError) : Diagnostic where
  range := index.rangeOf e.span
  severity := some (if e.problem.code = .duplicateKey then .warning else .error)
  code := some e.problem.code.number
  source := some Diagnostic.syntaxSource
  message := e.problem.message

/-- The diagnostics of the syntax errors of a literal. -/
def Literal.diagnostics (d : Literal) (index : LineIndex) : List Diagnostic :=
  d.errors.map (SyntaxError.diagnostic index)

end AnnotatedJson
