/-
  Modes.

  A mode answers requests about the parts of documents in one language.

  * `Capability` names the kinds of requests;
  * `Mode` has an answer to each; what a mode does not answer gets the empty answer;
  * `Mode.host` answers nothing at all.
-/
import AnnotatedJson.Protocol.Color
import AnnotatedJson.Protocol.Diagnostic
import AnnotatedJson.Protocol.Hover
import AnnotatedJson.Protocol.Location
import AnnotatedJson.Protocol.Signature
import AnnotatedJson.Workspace

namespace AnnotatedJson

/-- A kind of request. -/
inductive Capability where
  | validation
  | completion
  | completionResolve
  | hover
  | signatureHelp
  | documentHighlight
  | documentSymbols
  | documentLinks
  | definition
  | references
  | formatting
  | documentColors
  | colorPresentations
  | codeActions
  | commands
deriving DecidableEq, Repr, Inhabited

namespace Capability

/-- All kinds of requests. -/
def all : List Capability :=
  [validation, completion, completionResolve, hover, signatureHelp, documentHighlight,
    documentSymbols, documentLinks, definition, references, formatting, documentColors,
    colorPresentations, codeActions, commands]

/-- The name of a kind of request. -/
def name : Capability → String
  | validation => "Validation"
  | completion => "Completion"
  | completionResolve => "CompletionResolve"
  | hover => "Hover"
  | signatureHelp => "SignatureHelp"
  | documentHighlight => "DocumentHighlight"
  | documentSymbols => "DocumentSymbols"
  | documentLinks => "DocumentLinks"
  | definition => "Definition"
  | references => "References"
  | formatting => "Formatting"
  | documentColors => "DocumentColors"
  | colorPresentations => "ColorPresentations"
  | codeActions => "CodeActions"
  | commands => "Commands"

end Capability

/-- What a mode does for a request.  It may fail; what it did to the workspace stays. -/
abbrev Action (α : Type) : Type := ExceptT Error (StateM Workspace) α

/-- How a text is to be laid out. -/
structure FormatOptions where
  tabSize : Nat
deriving DecidableEq, Repr, Inhabited

/-- Answers to requests.  Two modes of one name are the same mode. -/
structure Mode where
  name : String
  /-- The name that is shown. -/
  id : String
  supports : Capability → Bool := fun _ => false
  configure : Settings → StateM Workspace Unit := fun _ => pure ()
  validate : Document → Action (List Diagnostic) := fun _ => pure []
  complete : Document → Position → Action CompletionList := fun _ _ => pure {}
  resolve : Document → CompletionItem → Action CompletionItem := fun _ item => pure item
  hover : Document → Position → Action (Option Hover) := fun _ _ => pure none
  signatureHelp : Document → Position → Action SignatureHelp := fun _ _ => pure .empty
  highlights : Document → Position → Action (List Highlight) := fun _ _ => pure []
  symbols : Document → Action (List DocumentSymbol) := fun _ => pure []
  links : Document → Action (List DocumentLink) := fun _ => pure []
  definitions : Document → Position → Action (List Location) := fun _ _ => pure []
  references : Document → Position → Action (List Location) := fun _ _ => pure []
  format : Document → Range → FormatOptions → Action (List TextEdit) := fun _ _ _ => pure []
  colors : Document → Action (List ColorInformation) := fun _ => pure []
  colorPresentations : Document → Color → Range → Action (List ColorPresentation) :=
    fun _ _ _ => pure []
  codeActions : Document → Range → Action (List Command) := fun _ _ => pure []
  /-- The commands that the mode runs. -/
  commands : List String := []
  execute : String → List Json → Action (Option Json) :=
    fun command _ => throw (.unknownCommand command)
  forget : Uri → StateM Workspace Unit := fun _ => pure ()
  dispose : StateM Workspace Unit := pure ()

/-- The mode of the text around literals.  It has an empty answer to each request. -/
def Mode.host : Mode where
  name := "null"
  id := ""
  supports
    | .hover | .completion | .signatureHelp | .references => true
    | _ => false

end AnnotatedJson
