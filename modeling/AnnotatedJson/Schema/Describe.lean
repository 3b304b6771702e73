/-
  What schemas say about a value: hover texts and proposals.

  * `Schema.hoverText?` puts together the first title, the first description and
    the first description of the value that some schemas give;
  * `Schema.keyItem` proposes a key, `Schema.valueItem` a value;
  * `Schema.valueItems` are the values that one schema proposes.
-/
import AnnotatedJson.Json.Printer
import AnnotatedJson.Protocol.Completion

namespace AnnotatedJson.Schema

/-- A text that is not empty. -/
def someText? (v : Json) : Option String :=
  v.asString?.filter fun s => !s.isEmpty

/-- The description of a schema; the one in markdown comes first. -/
def description? (schema : Json) : Option String :=
  ((schema.member? "markdownDescription").or (schema.member? "description")).bind someText?

/-- The descriptions of the values under `enum`. -/
def enumTexts? (schema : Json) : Option Json :=
  (schema.member? "markdownEnumDescriptions").or (schema.member? "enumDescriptions")

/-- The description of a value under `enum`. -/
def enumDescription? (schema value : Json) : Option String := do
  let options ← (← schema.member? "enum").asArray?
  let i ← options.findIdx? (· == value)
  someText? (← (← enumTexts? schema).item? i)

/-- The text about a value to which some schemas apply, if they say anything. -/
def hoverText? (schemas : List Json) (value : Option Json) : Option String :=
  let title := schemas.findSome? fun s => (s.member? "title").bind someText?
  let described := value.bind fun v =>
    (schemas.findSome? fun s => enumDescription? s v).map fun text => s!"`{v.render}`: {text}"
  let sections := (title.map fun t => s!"**{t}**").toList ++
    (schemas.findSome? description?).toList ++ described.toList
  if sections.isEmpty then none else some ("\n\n".intercalate sections)

/-! ## Proposals -/

/-- Proposes a key with a schema; `addValue` also puts the colon. -/
def keyItem (key : String) (schema : Json) (range : Range) (addValue : Bool) : CompletionItem :=
  let quoted := (Json.string key).render
  { label := key
    kind := some CompletionItem.propertyKind
    detail := (schema.member? "type").bind Json.asString?
    documentation := (description? schema).map .markdown
    filterText := some quoted
    textEdit := some (.edit ⟨range, if addValue then quoted ++ ": " else quoted⟩) }

/-- Proposes a value. -/
def valueItem (value : Json) (text : Option String) (range : Range) : CompletionItem :=
  let label := value.render
  { label := label
    kind := some (match value with
      | .string _ => CompletionItem.enumMemberKind
      | _ => CompletionItem.valueKind)
    documentation := text.map .markdown
    filterText := some label
    textEdit := some (.edit ⟨range, label⟩) }

/-- Whether a schema admits a type by name. -/
def hasType (schema : Json) (name : String) : Bool :=
  match schema.member? "type" with
  | some (.string t) => t == name
  | some (.array ts) => ts.any fun t => t.asString? == some name
  | _ => false

/-- The values under `enum`, each with its own description or that of the
    schema. -/
def enumItems (schema : Json) (range : Range) : List CompletionItem :=
  let texts := ((enumTexts? schema).bind Json.asArray?).getD []
  (((schema.member? "enum").bind Json.asArray?).getD []).mapIdx fun i option =>
    valueItem option ((texts[i]?.bind Json.asString?).or (description? schema)) range

/-- The values that a schema proposes: `const`, `enum`, the booleans, `default`
    and `null`. -/
def valueItems (schema : Json) (range : Range) : List CompletionItem :=
  let text := description? schema
  let constant := (schema.member? "const").toList.map fun v => valueItem v text range
  let booleans :=
    if hasType schema "boolean" then
      [valueItem (.bool true) none range, valueItem (.bool false) none range]
    else []
  let fallback := (schema.member? "default").toList.map fun v =>
    { valueItem v text range with detail := some "Default value" }
  let null := if hasType schema "null" then [valueItem .null none range] else []
  constant ++ enumItems schema range ++ booleans ++ fallback ++ null

end AnnotatedJson.Schema
