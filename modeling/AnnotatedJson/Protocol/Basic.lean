/-
  JSON forms of positions, ranges and spans.

  Positions and ranges are written as the language server protocol does; a span
  is written as a pair of offsets.
-/
import AnnotatedJson.Json.Basic
import AnnotatedJson.Text.LineIndex

namespace AnnotatedJson

/-- The object form of a position. -/
def Position.toJson (p : Position) : Json :=
  .object [("line", .ofNat p.line), ("character", .ofNat p.character)]

/-- The object form of a range. -/
def Range.toJson (r : Range) : Json :=
  .object [("start", r.start.toJson), ("end", r.stop.toJson)]

/-- The empty range at the start of a document. -/
def Range.origin : Range := ⟨⟨0, 0⟩, ⟨0, 0⟩⟩

/-- The pair of the ends of a span. -/
def Span.toJson (s : Span) : Json := .array [.ofNat s.start, .ofNat s.stop]

/-- Text as a value. -/
def Json.ofText (cs : Text) : Json := .string (String.ofList cs)

end AnnotatedJson
