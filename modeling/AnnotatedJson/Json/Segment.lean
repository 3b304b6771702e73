/-
  Steps into a JSON value.
-/
import AnnotatedJson.Json.Basic

namespace AnnotatedJson

/-- One step down: to a property or to an item. -/
inductive Segment where
  | key (name : String)
  | index (position : Nat)
deriving DecidableEq, Repr, Inhabited

end AnnotatedJson
