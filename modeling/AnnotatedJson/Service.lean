/-
  Requests about documents, answered by the modes that own the place.

  Requests about a position go to the mode that owns it; those about a whole
  document go to each of its modes, and the answers are put together in order.  A
  mode that fails gives its empty answer, it never makes a request fail.

  * `Registry.standard` has the mode of annotated literals and that of their hosts;
  * the other definitions are named for the requests.
-/
import AnnotatedJson.Mode.Literal
import AnnotatedJson.Mode.Registry

namespace AnnotatedJson

/-- The languages that literals are found in. -/
def hostLanguages : List String :=
  ["typescript", "javascript", "typescriptreact", "javascriptreact"]

/-- The modes of annotated literals and of their hosts. -/
def Registry.standard : Registry :=
  ⟨(literalLanguage, .literal) :: hostLanguages.map fun l => (l, .host)⟩

/-- The answer of a mode, unless it failed. -/
def Action.settle {α : Type} (a : Action α) : StateM Workspace (Option α) := do
  return (← a.run).toOption

namespace Registry

/-- Asks the mode that owns a position, if it answers such requests. -/
def askAt {α : Type} (r : Registry) (c : Capability) (d : Document) (p : Position) (empty : α)
    (ask : Mode → Action α) : StateM Workspace α := do
  match ← r.modeAt? d p with
  | some m => if m.supports c then return (← (ask m).settle).getD empty else return empty
  | none => return empty

/-- Asks all modes of a list and puts the answers together. -/
def gather {α β : Type} (ask : β → Action (List α)) : List β → StateM Workspace (List α)
  | [] => return []
  | m :: rest => do
    let items ← (ask m).settle
    return items.getD [] ++ (← gather ask rest)

/-- Asks all modes of a document that answer such requests. -/
def askAll {α : Type} (r : Registry) (c : Capability) (d : Document)
    (ask : Mode → Action (List α)) : StateM Workspace (List α) := do
  gather ask ((← r.modesInDocument d).filter fun m => m.supports c)

/-! ## Whole documents -/

def validate (r : Registry) (d : Document) : StateM Workspace (List Diagnostic) :=
  r.askAll .validation d fun m => m.validate d

def symbols (r : Registry) (d : Document) : StateM Workspace (List DocumentSymbol) :=
  r.askAll .documentSymbols d fun m => m.symbols d

def links (r : Registry) (d : Document) : StateM Workspace (List DocumentLink) :=
  r.askAll .documentLinks d fun m => m.links d

def colors (r : Registry) (d : Document) : StateM Workspace (List ColorInformation) :=
  r.askAll .documentColors d fun m => m.colors d

/-! ## Positions and ranges -/

def complete (r : Registry) (d : Document) (p : Position) : StateM Workspace CompletionList :=
  r.askAt .completion d p {} fun m => m.complete d p

def hover (r : Registry) (d : Document) (p : Position) : StateM Workspace (Option Hover) :=
  r.askAt .hover d p none fun m => m.hover d p

/-- Help on a signature; help without any signature is none. -/
def signatureHelp (r : Registry) (d : Document) (p : Position) :
    StateM Workspace (Option SignatureHelp) :=
  r.askAt .signatureHelp d p none fun m => do
    let help ← m.signatureHelp d p
    return if help.labels.isEmpty then none else some help

def highlights (r : Registry) (d : Document) (p : Position) : StateM Workspace (List Highlight) :=
  r.askAt .documentHighlight d p [] fun m => m.highlights d p

def definitions (r : Registry) (d : Document) (p : Position) : StateM Workspace (List Location) :=
  r.askAt .definition d p [] fun m => m.definitions d p

def references (r : Registry) (d : Document) (p : Position) : StateM Workspace (List Location) :=
  r.askAt .references d p [] fun m => m.references d p

def colorPresentations (r : Registry) (d : Document) (color : Color) (range : Range) :
    StateM Workspace (List ColorPresentation) :=
  r.askAt .colorPresentations d range.start [] fun m => m.colorPresentations d color range

def codeActions (r : Registry) (d : Document) (range : Range) : StateM Workspace (List Command) :=
  r.askAt .codeActions d range.start [] fun m => m.codeActions d range

/-- Lays out each part of a range by the mode of its language. -/
def format (r : Registry) (d : Document) (range : Range) (options : FormatOptions) :
    StateM Workspace (List TextEdit) := do
  let parts ← r.modesInRange d range
  gather (fun p => p.mode.format d p.part.range options)
    (parts.filter fun p => p.mode.supports .formatting)

/-! ## Proposals and commands -/

/-- The language that a proposal comes from. -/
def itemLanguage? (item : CompletionItem) : Option String :=
  (item.data.bind fun data => data.member? "languageId").bind Json.asString?

/-- Completes a proposal by the mode it comes from. -/
def resolve (r : Registry) (d : Document) (item : CompletionItem) :
    StateM Workspace CompletionItem := do
  match (itemLanguage? item).bind r.mode? with
  | some m =>
    if m.supports .completionResolve then
      return (← (m.resolve d item).settle).getD item
    else return item
  | none => return item

/-- Runs a command by the first mode that knows it. -/
def execute (r : Registry) (command : String) (arguments : List Json) : Action (Option Json) :=
  match r.commandMode? command with
  | some m => m.execute command arguments
  | none => throw (.unknownCommand command)

end Registry

end AnnotatedJson
