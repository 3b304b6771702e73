/-
  Hover texts.
-/
import AnnotatedJson.Protocol.Completion

namespace AnnotatedJson

/-- A text about a range of a document. -/
structure Hover where
  contents : Markup
  range : Option Range
deriving DecidableEq, Repr, Inhabited

/-- The object form of a hover text. -/
def Hover.toJson (h : Hover) : Json :=
  .ofFields [("contents", some h.contents.toJson), ("range", h.range.map Range.toJson)]

end AnnotatedJson
