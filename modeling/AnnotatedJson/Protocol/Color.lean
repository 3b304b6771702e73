/-
  Colours in a document, and how they may be written.
-/
import AnnotatedJson.Protocol.Completion

namespace AnnotatedJson

/-- A colour; each part lies between zero and one. -/
structure Color where
  red : Binary64
  green : Binary64
  blue : Binary64
  alpha : Binary64
deriving DecidableEq, Repr, Inhabited

/-- The object form of a colour. -/
def Color.toJson (c : Color) : Json :=
  .object [("red", .number (.float c.red)), ("green", .number (.float c.green)),
    ("blue", .number (.float c.blue)), ("alpha", .number (.float c.alpha))]

/-- A range that stands for a colour. -/
structure ColorInformation where
  range : Range
  color : Color
deriving DecidableEq, Repr, Inhabited

/-- The object form of a range with its colour. -/
def ColorInformation.toJson (i : ColorInformation) : Json :=
  .object [("range", i.range.toJson), ("color", i.color.toJson)]

/-- A way to write a colour. -/
structure ColorPresentation where
  label : String
  textEdit : Option TextEdit := none
deriving DecidableEq, Repr, Inhabited

/-- The object form of a way to write a colour. -/
def ColorPresentation.toJson (p : ColorPresentation) : Json :=
  .ofFields [("label", some (.string p.label)), ("textEdit", p.textEdit.map TextEdit.toJson)]

end AnnotatedJson
