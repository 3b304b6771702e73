/-
  Regions of a host document.

  A region is a part of the host text in another language.  Its sub-document is
  the host text up to the end of the region with everything before the region
  blanked out, so that offsets and positions stay the same.

  * `Region` is a region, `Region.host` the part of the host after some offset;
  * `Region.contains` decides which offsets belong to it, both ends included;
  * `Region.maskedText` is the text of its sub-document.
-/
import AnnotatedJson.Literal.Correction
import AnnotatedJson.Text.Mask

namespace AnnotatedJson

/-- The language of annotated literals. -/
def literalLanguage : String := "amisjson"

/-- What a region is. -/
inductive RegionKind where
  | template
  | script
  | style
  | custom
deriving DecidableEq, Repr, Inhabited

/-- The name of a kind of region. -/
def RegionKind.name : RegionKind → String
  | .template => "Template"
  | .script => "Script"
  | .style => "Style"
  | .custom => "Custom"

/-- A part of a document in a language of its own. -/
structure Region where
  span : Span
  language : String
  kind : RegionKind
  /-- The label that announces the region. -/
  label : Option String := none
  /-- The schema that the label is bound to. -/
  schemaUri : Option String := none
  /-- The text of the sub-document, if it is known. -/
  text : Option Text := none
  corrections : List Correction := []
  /-- The comment that holds the label. -/
  annotation : Option Span := none
deriving DecidableEq, Repr, Inhabited

namespace Region

/-- The part of a host document between two offsets. -/
def host (start stop : Nat) (language : String) : Region := ⟨⟨start, stop⟩, language, .script,
  none, none, none, [], none⟩

/-- Whether an offset belongs to a region.  The end does, so that a cursor behind
    the last brace is still inside. -/
def contains (r : Region) (offset : Nat) : Bool := r.span.start ≤ offset && offset ≤ r.span.stop

/-- Whether a region is one of its own, not a part of the host. -/
def isEmbedded (r : Region) : Bool := r.kind = .custom

/-- The text of the sub-document of a region. -/
def maskedText (r : Region) (hostText : Text) : Text :=
  r.text.getD (Text.maskPrefix hostText r.span.start r.span.stop)

end Region

end AnnotatedJson
