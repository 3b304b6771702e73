/-
  Corrections of properties that JSON cannot express.

  The host language writes values that JSON does not have: bare words, values in
  single quotes or backticks.  A correction records such a property with the
  text of its value.
-/
import AnnotatedJson.Text.Basic

namespace AnnotatedJson

/-- A piece of text and where it stands. -/
structure Excerpt where
  span : Span
  value : String
deriving DecidableEq, Repr, Inhabited

/-- A property whose value has to be supplied. -/
structure Correction where
  /-- The extent of key and value. -/
  span : Span
  key : Excerpt
  /-- The extent of the value, quotes included, and the text between them. -/
  value : Excerpt
deriving DecidableEq, Repr, Inhabited

end AnnotatedJson
