/-
  Completion proposals.

  * `CompletionItem` is a proposal, `CompletionList` the answer to a request;
  * `toJson` writes them; fields without a value are left out.
-/
import AnnotatedJson.Protocol.Basic

namespace AnnotatedJson

/-- The replacement of a range by a text. -/
structure TextEdit where
  range : Range
  newText : String
deriving DecidableEq, Repr, Inhabited

/-- The object form of an edit. -/
def TextEdit.toJson (e : TextEdit) : Json :=
  .object [("range", e.range.toJson), ("newText", .string e.newText)]

/-- A command that a client may run. -/
structure Command where
  title : String
  command : String
  arguments : Option (List Json) := none
deriving Inhabited

/-- The object form of a command. -/
def Command.toJson (c : Command) : Json :=
  .ofFields [("title", some (.string c.title)), ("command", some (.string c.command)),
    ("arguments", c.arguments.map .array)]

/-- How a text is to be shown. -/
inductive MarkupKind where
  | plaintext
  | markdown
deriving DecidableEq, Repr, Inhabited

/-- The name of a kind of markup. -/
def MarkupKind.name : MarkupKind → String
  | .plaintext => "plaintext"
  | .markdown => "markdown"

/-- A text with its kind of markup, or without one. -/
structure Markup where
  kind : Option MarkupKind
  value : String
deriving DecidableEq, Repr, Inhabited

/-- Markdown text. -/
def Markup.markdown (value : String) : Markup := ⟨some .markdown, value⟩

/-- The object form of marked text; a text without markup is a string. -/
def Markup.toJson (m : Markup) : Json :=
  match m.kind with
  | some kind => .object [("kind", .string kind.name), ("value", .string m.value)]
  | none => .string m.value

/-- What a proposal changes in the document. -/
inductive CompletionEdit where
  | edit (e : TextEdit)
  /-- The text either replaces a range or is put at the start of another. -/
  | insertReplace (newText : String) (insert replace : Range)
deriving DecidableEq, Repr, Inhabited

/-- The object form of the change. -/
def CompletionEdit.toJson : CompletionEdit → Json
  | .edit e => e.toJson
  | .insertReplace newText insert replace =>
    .object [("newText", .string newText), ("insert", insert.toJson), ("replace", replace.toJson)]

/-- Additions to the label of a proposal. -/
structure LabelDetails where
  detail : Option String := none
  description : Option String := none
deriving DecidableEq, Repr, Inhabited

/-- The object form of the additions. -/
def LabelDetails.toJson (d : LabelDetails) : Json :=
  .ofFields [("detail", d.detail.map .string), ("description", d.description.map .string)]

/-- A proposal.  Kinds, formats, modes and tags are the numbers of the protocol. -/
structure CompletionItem where
  label : String
  labelDetails : Option LabelDetails := none
  kind : Option Int := none
  detail : Option String := none
  documentation : Option Markup := none
  deprecated : Option Bool := none
  preselect : Option Bool := none
  sortText : Option String := none
  filterText : Option String := none
  insertText : Option String := none
  insertTextFormat : Option Int := none
  insertTextMode : Option Int := none
  textEdit : Option CompletionEdit := none
  additionalTextEdits : Option (List TextEdit) := none
  command : Option Command := none
  commitCharacters : Option (List String) := none
  data : Option Json := none
  tags : Option (List Int) := none
deriving Inhabited

/-- The object form of a proposal. -/
def CompletionItem.toJson (i : CompletionItem) : Json :=
  .ofFields [("label", some (.string i.label)),
    ("labelDetails", i.labelDetails.map LabelDetails.toJson),
    ("kind", i.kind.map .ofInt),
    ("detail", i.detail.map .string),
    ("documentation", i.documentation.map Markup.toJson),
    ("deprecated", i.deprecated.map .bool),
    ("preselect", i.preselect.map .bool),
    ("sortText", i.sortText.map .string),
    ("filterText", i.filterText.map .string),
    ("insertText", i.insertText.map .string),
    ("insertTextFormat", i.insertTextFormat.map .ofInt),
    ("insertTextMode", i.insertTextMode.map .ofInt),
    ("textEdit", i.textEdit.map CompletionEdit.toJson),
    ("additionalTextEdits", i.additionalTextEdits.map fun es => .array (es.map TextEdit.toJson)),
    ("command", i.command.map Command.toJson),
    ("commitCharacters", i.commitCharacters.map fun cs => .array (cs.map .string)),
    ("data", i.data),
    ("tags", i.tags.map fun ts => .array (ts.map .ofInt))]

/-- The kinds of proposals made here. -/
def CompletionItem.propertyKind : Int := 10
def CompletionItem.valueKind : Int := 12
def CompletionItem.enumMemberKind : Int := 20

/-- An answer to a completion request. -/
structure CompletionList where
  /-- Typing on should ask again. -/
  isIncomplete : Bool := false
  items : List CompletionItem := []
deriving Inhabited

/-- The object form of an answer. -/
def CompletionList.toJson (l : CompletionList) : Json :=
  .object [("isIncomplete", .bool l.isIncomplete),
    ("items", .array (l.items.map CompletionItem.toJson))]

end AnnotatedJson
