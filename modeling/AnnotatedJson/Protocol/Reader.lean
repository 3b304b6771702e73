/-
  Reading what clients send.

  A record is given as an object, in which names that mean nothing are passed over,
  or as an array of all its fields in order.  An optional field may be absent or
  `null`.
-/
import AnnotatedJson.Protocol.Color
import AnnotatedJson.Uri.Parse

namespace AnnotatedJson

namespace Json

/-- The named fields of a record. -/
def record? (names : List String) : Json → Option (List (String × Json))
  | .object members => some members
  | .array items => if items.length = names.length then some (names.zip items) else none
  | _ => none

/-- Reads a field. -/
def field? {α : Type} (read : Json → Option α) (name : String) (members : List (String × Json)) :
    Option α :=
  (lookup name members).bind read

/-- Reads a field that may be absent. -/
def optionalField? {α : Type} (read : Json → Option α) (name : String)
    (members : List (String × Json)) : Option (Option α) :=
  match lookup name members with
  | none | some .null => some none
  | some v => (read v).map some

/-- Reads the items of an array. -/
def listOf? {α : Type} (read : Json → Option α) (v : Json) : Option (List α) :=
  v.asArray?.bind fun xs => xs.mapM read

/-- Reads a natural number of 32 bits. -/
def asWord? (v : Json) : Option Nat := v.asNat?.filter (· < 0x100000000)

/-- Reads a signed integer of 32 bits. -/
def asSignedWord? (v : Json) : Option Int :=
  v.asInt?.filter fun n => -0x80000000 ≤ n ∧ n < 0x80000000

/-- Reads a number as a double. -/
def asDouble? : Json → Option Binary64
  | .number (.int n) => some (.ofInt n)
  | .number (.float x) => some x
  | _ => none

/-- Reads a URI. -/
def asUri? (v : Json) : Option Uri := v.asString?.bind Uri.parse?

end Json

open Json

/-! ## Places -/

/-- Reads a position. -/
def Position.ofJson? (v : Json) : Option Position := do
  let r ← v.record? ["line", "character"]
  return ⟨← field? asWord? "line" r, ← field? asWord? "character" r⟩

/-- Reads a range. -/
def Range.ofJson? (v : Json) : Option Range := do
  let r ← v.record? ["start", "end"]
  return ⟨← field? Position.ofJson? "start" r, ← field? Position.ofJson? "end" r⟩

/-- Reads a colour. -/
def Color.ofJson? (v : Json) : Option Color := do
  let r ← v.record? ["red", "green", "blue", "alpha"]
  return ⟨← field? asDouble? "red" r, ← field? asDouble? "green" r, ← field? asDouble? "blue" r,
    ← field? asDouble? "alpha" r⟩

/-! ## Proposals -/

/-- Reads an edit. -/
def TextEdit.ofJson? (v : Json) : Option TextEdit := do
  let r ← v.record? ["range", "newText"]
  return ⟨← field? Range.ofJson? "range" r, ← field? asString? "newText" r⟩

/-- Reads a command. -/
def Command.ofJson? (v : Json) : Option Command := do
  let r ← v.record? ["title", "command", "arguments"]
  return ⟨← field? asString? "title" r, ← field? asString? "command" r,
    ← optionalField? asArray? "arguments" r⟩

/-- Reads a kind of markup. -/
def MarkupKind.ofJson? : Json → Option MarkupKind
  | .string "plaintext" => some .plaintext
  | .string "markdown" => some .markdown
  | _ => none

/-- Reads a text with its kind of markup, or without one. -/
def Markup.ofJson? : Json → Option Markup
  | .string value => some ⟨none, value⟩
  | v => do
    let r ← v.record? ["kind", "value"]
    return ⟨← field? MarkupKind.ofJson? "kind" r, ← field? asString? "value" r⟩

/-- Reads what a proposal changes. -/
def CompletionEdit.ofJson? (v : Json) : Option CompletionEdit :=
  match TextEdit.ofJson? v with
  | some e => some (.edit e)
  | none => do
    let r ← v.record? ["newText", "insert", "replace"]
    return .insertReplace (← field? asString? "newText" r) (← field? Range.ofJson? "insert" r)
      (← field? Range.ofJson? "replace" r)

/-- Reads additions to a label. -/
def LabelDetails.ofJson? (v : Json) : Option LabelDetails := do
  let r ← v.record? ["detail", "description"]
  return ⟨← optionalField? asString? "detail" r, ← optionalField? asString? "description" r⟩

/-- The fields of a proposal in order. -/
def CompletionItem.fieldNames : List String :=
  ["label", "labelDetails", "kind", "detail", "documentation", "deprecated", "preselect",
    "sortText", "filterText", "insertText", "insertTextFormat", "insertTextMode", "textEdit",
    "additionalTextEdits", "command", "commitCharacters", "data", "tags"]

/-- Reads a proposal. -/
def CompletionItem.ofJson? (v : Json) : Option CompletionItem := do
  let r ← v.record? fieldNames
  return {
    label := ← field? asString? "label" r
    labelDetails := ← optionalField? LabelDetails.ofJson? "labelDetails" r
    kind := ← optionalField? asSignedWord? "kind" r
    detail := ← optionalField? asString? "detail" r
    documentation := ← optionalField? Markup.ofJson? "documentation" r
    deprecated := ← optionalField? asBool? "deprecated" r
    preselect := ← optionalField? asBool? "preselect" r
    sortText := ← optionalField? asString? "sortText" r
    filterText := ← optionalField? asString? "filterText" r
    insertText := ← optionalField? asString? "insertText" r
    insertTextFormat := ← optionalField? asSignedWord? "insertTextFormat" r
    insertTextMode := ← optionalField? asSignedWord? "insertTextMode" r
    textEdit := ← optionalField? CompletionEdit.ofJson? "textEdit" r
    additionalTextEdits := ← optionalField? (listOf? TextEdit.ofJson?) "additionalTextEdits" r
    command := ← optionalField? Command.ofJson? "command" r
    commitCharacters := ← optionalField? (listOf? asString?) "commitCharacters" r
    data := ← optionalField? some "data" r
    tags := ← optionalField? (listOf? asSignedWord?) "tags" r }

end AnnotatedJson
