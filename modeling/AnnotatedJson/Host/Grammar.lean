/-
  The parts of the host grammar that contain each other.

  Each construct is read by a function that is handed the readers of the
  constructs it may contain.  `HostGrammar` is the record of these readers; how
  deep they go is decided where the record is made.
-/
import AnnotatedJson.Host.Cursor

namespace AnnotatedJson

/-- The readers of the constructs that may contain each other. -/
structure HostGrammar where
  /-- An expression without a comma.  The flag allows an arrow function to state
      the type of its result. -/
  expression : Bool → HostParser HostNode
  /-- An expression as far as calls and member accesses go. -/
  access : HostParser HostNode
  /-- What a prefix operator may be applied to. -/
  operand : HostParser HostNode
  statement : HostParser HostNode
  /-- The name or the pattern that is bound by a declaration. -/
  binding : HostParser HostNode
  type : HostParser Unit
  /-- An element in angle brackets. -/
  element : HostParser HostNode

namespace HostGrammar

/-- The record whose readers all fail. -/
def empty : HostGrammar :=
  ⟨fun _ => failure, failure, failure, failure, failure, failure, failure⟩

variable (g : HostGrammar)

open HostParser

/-- Expressions with commas between them; more than one make a sequence. -/
def expressions : HostParser HostNode := do
  let start := (← here).start
  let first ← g.expression true
  let rest ← many (do
    if ← mark? "," then return some (← g.expression true) else return none)
  if rest.isEmpty then return first else node .other start (first :: rest)

end HostGrammar

end AnnotatedJson
