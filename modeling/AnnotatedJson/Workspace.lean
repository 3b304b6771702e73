/-
  The state that requests work on.

  * `Workspace` holds the open documents, the cache of their regions, and what the
    mode of annotated literals keeps;
  * `Workspace.regionsOf` reads the regions of a document through the cache;
  * `Workspace.schemaAt?` reads a schema through the memo;
  * `Workspace.deliver` tells the preview about changes.
-/
import AnnotatedJson.Cache.Basic
import AnnotatedJson.Document.Store
import AnnotatedJson.Pattern.Reader
import AnnotatedJson.Preview
import AnnotatedJson.Region.Extract
import AnnotatedJson.Schema.Memo
import AnnotatedJson.Schema.Navigate

namespace AnnotatedJson

/-- What the mode of annotated literals keeps. -/
structure LiteralState where
  settings : Settings := {}
  /-- Whether syntax errors are reported. -/
  validate : Bool := false
  allowComments : Bool := false
  schemas : SchemaMemo := {}
  preview : Option Preview := none
  disposed : Bool := false

/-- The state that requests work on. -/
structure Workspace where
  documents : DocumentStore := {}
  regions : ArtifactCache RegionIndex
  /-- The bindings that regions are found with. -/
  bindings : List SchemaBinding
  /-- Finds the regions of a document. -/
  findRegions : List SchemaBinding → Document → List Region
  /-- The body of the schema at a location. -/
  schemaBody : String → Except Error String
  /-- Matches keys against the patterns of schemas. -/
  engine : Schema.Engine := Pattern.engine
  literals : LiteralState := {}
  /-- What was sent about previews, in order. -/
  sent : List PreviewMessage := []

/-- Finds the annotated literals of a document. -/
def Region.ofDocument (bindings : List SchemaBinding) (d : Document) : List Region :=
  Region.extract (.ofDocument d.uri d.language) bindings d.text

namespace Workspace

/-- A workspace without documents. -/
def ofSettings (s : Settings) (schemaBody : String → Except Error String) : Workspace where
  regions := .ofOptions s.cache.options
  bindings := s.bindings
  findRegions := Region.ofDocument
  schemaBody := schemaBody

/-- Changes what the mode of annotated literals keeps. -/
def modifyLiterals (f : LiteralState → LiteralState) (w : Workspace) : Workspace :=
  { w with literals := f w.literals }

/-- The regions of a document. -/
def regionsOf (d : Document) : StateM Workspace RegionIndex := fun w =>
  let (index, regions) := w.regions.fetch d fun d => .ofRegions d (w.findRegions w.bindings d)
  (index, { w with regions })

/-- The schema at a location, if it loads. -/
def schemaAt? (uri : String) : StateM Workspace (Option Json) := fun w =>
  let request (uri : String) (_ : Unit) := (w.schemaBody uri, ())
  let (schema, schemas, _) := w.literals.schemas.get request uri ()
  (schema.toOption, w.modifyLiterals fun l => { l with schemas })

/-- Sends a message about a preview. -/
def send (m : PreviewMessage) : StateM Workspace Unit :=
  modify fun w => { w with sent := w.sent ++ [m] }

/-! ## Subscriptions -/

/-- Begins a subscription to the changes of documents. -/
def subscribe : StateM Workspace Nat := fun w =>
  let (subscription, documents) := w.documents.subscribe
  (subscription, { w with documents })

/-- Ends a subscription. -/
def unsubscribe (subscription : Nat) : StateM Workspace Unit :=
  modify fun w => { w with documents := w.documents.unsubscribe subscription }

/-! ## Previews -/

/-- What is shown of a region of a document. -/
def preview (d : Document) (index : Nat) : StateM Workspace (Except Error PreviewPayload) := do
  let regions ← regionsOf d
  let w ← get
  return regions.preview w.literals.allowComments index

/-- Follows a region in place of the one that was followed before. -/
def startPreview (p : Preview) : StateM Workspace Unit := modify fun w =>
  let documents := match w.literals.preview with
    | some old => w.documents.unsubscribe old.subscription
    | none => w.documents
  { w with documents }.modifyLiterals fun l => { l with preview := some p }

/-- Follows no region any more. -/
def stopPreview : StateM Workspace Unit := modify fun w =>
  match w.literals.preview with
  | some old =>
    { w with documents := w.documents.unsubscribe old.subscription }.modifyLiterals fun l =>
      { l with preview := none }
  | none => w

/-- Tells the preview about an event. -/
def showEvent (p : Preview) : DocumentEvent → StateM Workspace Unit
  | .changed d => do
    if d.uri = p.uri then
      match ← preview d p.index with
      | .ok payload => send (.updated payload)
      | .error _ => pure ()
  | .closed _ => pure ()

/-- Tells the preview about all that waits for it. -/
def deliver : StateM Workspace Unit := do
  match (← get).literals.preview with
  | some p =>
    let ((_, events), documents) := (← get).documents.drain p.subscription
    modify fun w => { w with documents }
    events.forM (showEvent p)
  | none => pure ()

end Workspace

end AnnotatedJson
