/-
  The mode of annotated literals.

  Each region is read as JSON, gets a `$schema` that points at its bound schema, and
  has its shorthand values put in place before requests are answered.

  * `RegionIndex.prepare?` makes a region ready;
  * `Mode.literal` answers requests about regions and runs the preview commands.
-/
import AnnotatedJson.Mode.Basic
import AnnotatedJson.Schema.Assist

namespace AnnotatedJson

/-- The command that shows a region. -/
def previewCommand : String := "amis.previewSchema"

/-- The command that ends the preview. -/
def endPreviewCommand : String := "amis.endPreviewSchema"

/-- A region that is ready for requests. -/
structure PreparedRegion where
  document : Document
  literal : Literal
  label : String

/-- Makes a region ready. -/
def Region.prepare (r : Region) (d : Document) (l : LiteralState) : PreparedRegion :=
  let uri := r.schemaUri.getD (l.settings.schemaUriFor r.label)
  let (_, pointed) := (Literal.parse d.text l.allowComments).insertSchema uri
  let (_, filled) := pointed.fillHoles r.corrections
  ⟨d, filled.dropShorthandErrors, r.shownLabel⟩

/-- Makes the region with a number ready. -/
def RegionIndex.prepare? (x : RegionIndex) (l : LiteralState) (index : Nat) :
    Option PreparedRegion :=
  x.regions[index]?.map fun r => r.prepare (x.subDocument index r) l

/-- All regions, ready. -/
def RegionIndex.prepareAll (x : RegionIndex) (l : LiteralState) : List PreparedRegion :=
  (List.range x.regions.length).filterMap (x.prepare? l)

namespace LiteralMode

/-- The region at a position, ready. -/
def preparedAt? (d : Document) (p : Position) : StateM Workspace (Option PreparedRegion) := do
  let regions ← Workspace.regionsOf d
  let w ← get
  return (regions.owner p).index?.bind (regions.prepare? w.literals)

/-- The schema that a literal points at, if it loads. -/
def schemaOf? (l : Literal) : StateM Workspace (Option Json) :=
  match l.schemaUri? with
  | some uri => Workspace.schemaAt? uri
  | none => pure none

/-! ## Settings -/

/-- The locations that are bound, each once. -/
def boundSchemas (s : Settings) : List String := (s.bindings.map SchemaBinding.schema).eraseDups

/-- Takes over settings: all schemas are forgotten, and those that are bound are loaded. -/
def configure (s : Settings) : StateM Workspace Unit := do
  modify fun w => w.modifyLiterals fun l =>
    { l with
      settings := s
      validate := s.validate
      allowComments := true
      schemas := l.schemas.reset [] }
  (boundSchemas s).forM fun uri => discard (Workspace.schemaAt? uri)

/-! ## Requests -/

/-- The syntax errors of all regions. -/
def validate (d : Document) : Action (List Diagnostic) := do
  if (← get).literals.validate then
    let regions ← Workspace.regionsOf d
    let w ← get
    return (regions.prepareAll w.literals).flatMap fun r => r.literal.diagnostics d.index
  else
    return []

/-- Marks a proposal with where it comes from. -/
def marked (uri : Uri) (item : CompletionItem) : CompletionItem :=
  { item with data := some (.object
      [("languageId", .string literalLanguage), ("uri", .string uri.toString)]) }

/-- Proposals at a position. -/
def complete (d : Document) (p : Position) : Action CompletionList := do
  let some r ← preparedAt? d p | return {}
  let offset := r.document.offsetAt p
  if r.literal.isInComment offset then return {}
  let some schema ← schemaOf? r.literal | return {}
  let engine := (← get).engine
  let items := r.literal.complete r.document.text r.document.index offset engine schema
  return { items := items.map (marked d.uri) }

/-- The hover text at a position. -/
def hover (d : Document) (p : Position) : Action (Option Hover) := do
  let some r ← preparedAt? d p | return none
  let some target := r.literal.hoverTarget? (r.document.offsetAt p) | return none
  let some schema ← schemaOf? r.literal | return none
  return target.hover? r.literal r.document.index (← get).engine schema

/-- The symbol of a property of a literal.  A property without text has none. -/
def propertySymbol? (d : Document) (label : String) (n : Node) : Option DocumentSymbol :=
  match n.keyText? with
  | some key =>
    if n.span.start = n.span.stop then none
    else some ⟨key, .property, ⟨d.uri, d.rangeOf n.span⟩, some label⟩
  | none => none

/-- The symbols of the properties of a literal. -/
def propertySymbols (d : Document) (r : PreparedRegion) : List DocumentSymbol :=
  match r.literal.root with
  | some (.object _ members) => members.filterMap (propertySymbol? d r.label)
  | _ => []

/-- Regions and their properties as symbols. -/
def symbols (d : Document) : Action (List DocumentSymbol) := do
  let regions ← Workspace.regionsOf d
  let w ← get
  return (regions.regions.zipIdx).flatMap fun (r, i) =>
    ⟨r.shownLabel, .module, ⟨d.uri, d.rangeOf r.span⟩, none⟩ ::
      propertySymbols d (r.prepare (regions.subDocument i r) w.literals)

/-- The link from the annotation of a region to its schema. -/
def link? (d : Document) (r : Region) : Option DocumentLink := do
  let annotation ← r.annotation
  let target ← Uri.parse? (← r.schemaUri)
  return ⟨d.rangeOf annotation, some target, some s!"{r.shownLabel} schema"⟩

/-- Annotations as links. -/
def links (d : Document) : Action (List DocumentLink) := do
  let regions ← Workspace.regionsOf d
  return regions.regions.filterMap (link? d)

/-- The command that shows the region at the start of a range. -/
def codeActions (d : Document) (range : Range) : Action (List Command) := do
  let regions ← Workspace.regionsOf d
  match (regions.owner range.start).index? with
  | some i =>
    let arguments := [.string d.uri.toString, .ofNat i]
    return [⟨"preview schema", previewCommand, some arguments⟩]
  | none => return []

/-! ## Commands -/

/-- The document and the number of the region that arguments name. -/
def previewArguments (arguments : List Json) : Except Error (Uri × Nat) := do
  let invalid (reason : String) : Error := .invalidCommandArguments previewCommand reason
  let some text := arguments[0]?.bind Json.asString?
    | throw (invalid "expected a document URI as the first argument")
  let uri ← (Uri.parse text).mapError fun e => invalid e.message
  let some index := arguments[1]?.bind Json.asNat?
    | throw (invalid "expected a region index as the second argument")
  return (uri, index)

/-- Shows a region and follows it by a subscription. -/
def showRegion (uri : Uri) (index subscription : Nat) : Action Unit := do
  let some d := (← get).documents.get? uri | throw (.documentNotFound uri.toString)
  let payload ← ExceptT.mk (Workspace.preview d index)
  Workspace.send (.opened payload)
  Workspace.startPreview ⟨uri, index, subscription⟩

/-- Shows a region and follows it.  If that fails, the region that was followed before still is. -/
def startPreview (arguments : List Json) : Action Unit := do
  let (uri, index) ← ExceptT.mk (pure (previewArguments arguments))
  -- Changes that are made before the region is shown wait here.
  let subscription ← Workspace.subscribe
  tryCatch (showRegion uri index subscription) fun e => do
    Workspace.unsubscribe subscription
    throw e

/-- Runs a command. -/
def execute (command : String) (arguments : List Json) : Action (Option Json) := do
  if command = previewCommand then
    startPreview arguments
    return none
  else if command = endPreviewCommand then
    Workspace.stopPreview
    return none
  else throw (.unknownCommand command)

/-- Ends the preview, the first time it is asked for. -/
def dispose : StateM Workspace Unit := do
  if !(← get).literals.disposed then
    modify fun w => w.modifyLiterals fun l => { l with disposed := true }
    Workspace.stopPreview

end LiteralMode

/-- The mode of annotated literals. -/
def Mode.literal : Mode where
  name := "schema"
  id := literalLanguage
  supports
    | .validation | .completion | .completionResolve | .hover | .documentSymbols
    | .documentLinks | .codeActions | .commands => true
    | _ => false
  configure := LiteralMode.configure
  validate := LiteralMode.validate
  complete := LiteralMode.complete
  hover := LiteralMode.hover
  symbols := LiteralMode.symbols
  links := LiteralMode.links
  codeActions := LiteralMode.codeActions
  commands := [previewCommand, endPreviewCommand]
  execute := LiteralMode.execute
  dispose := LiteralMode.dispose

end AnnotatedJson
