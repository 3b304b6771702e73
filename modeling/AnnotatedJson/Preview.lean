/-
  Live previews of regions.

  * `PreviewPayload` is what is shown of a region, `RegionIndex.preview` makes it;
  * `Preview` is the region that is followed at present.
-/
import AnnotatedJson.Error
import AnnotatedJson.Literal.Parse
import AnnotatedJson.Literal.Path
import AnnotatedJson.Literal.Repair
import AnnotatedJson.Region.Index
import AnnotatedJson.Settings.Basic

namespace AnnotatedJson

/-- The content of a preview. -/
structure PreviewPayload where
  label : String
  value : Json

/-- What is sent to whoever shows previews. -/
inductive PreviewMessage where
  /-- Shows a region for the first time. -/
  | opened (payload : PreviewPayload)
  /-- Shows the region after a change. -/
  | updated (payload : PreviewPayload)

/-- The region that is followed. -/
structure Preview where
  uri : Uri
  index : Nat
  /-- The subscription that tells of changes. -/
  subscription : Nat

/-- The label of a region; regions without one have the default label. -/
def Region.shownLabel (r : Region) : String := r.label.getD defaultLabel

/-- What is shown of a region: its literal as JSON with shorthand values in place, or its source
text if it is none. -/
def RegionIndex.preview (x : RegionIndex) (allowComments : Bool) (index : Nat) :
    Except Error PreviewPayload :=
  match x.regions[index]? with
  | some r =>
    let text := (x.subDocument index r).text
    let (_, literal) := (Literal.parse text allowComments).fillHoles r.corrections
    let source := (Text.slice? x.document.text r.span).getD []
    .ok ⟨r.shownLabel, literal.toJson?.getD (.string (String.ofList source))⟩
  | none => .error (.regionNotFound x.document.uri.toString index)

end AnnotatedJson
