/-
  Hovering and completion in a literal with a schema.

  Both have a part that does not need the schema, which decides whether one has
  to be loaded at all.

  * `Literal.schemaUri?` is the location that the root names;
  * `Literal.hoverTarget?` is what the cursor is on, `HoverTarget.hover?` the text;
  * `Literal.isInComment` and `Literal.complete` do the same for proposals.
-/
import AnnotatedJson.Literal.Repair
import AnnotatedJson.Protocol.Hover
import AnnotatedJson.Schema.Describe
import AnnotatedJson.Schema.Navigate
import AnnotatedJson.Text.Word

namespace AnnotatedJson

/-- The values of the schemas that apply at the end of a path. -/
def Literal.schemasAlong (d : Literal) (engine : Schema.Engine) (schema : Json)
    (path : List PathStep) : List Json :=
  (Schema.along engine schema d.root path).map Located.value

/-- The schema location that the root of a literal names. -/
def Literal.schemaUri? (d : Literal) : Option String :=
  d.root.bind fun root => (root.valueOf? schemaKey).bind Node.text?

/-! ## Hovering -/

/-- What the cursor is on. -/
structure HoverTarget where
  /-- The node under the cursor, which the text is shown at. -/
  shown : Node
  /-- The node that the text is about: the value if the cursor is on its key, or
      the property if there is no value. -/
  node : Node
deriving Repr, Inhabited

/-- Whether an offset lies inside a container, away from its brackets. -/
def Node.isInside (n : Node) (offset : Nat) : Bool :=
  (n.isObject || n.isArray) && n.offset + 1 < offset && offset + 1 < n.stop

/-- What the cursor is on, if there can be a text about it. -/
def Literal.hoverTarget? (d : Literal) (offset : Nat) : Option HoverTarget := do
  let n ← d.nodeAt? offset false
  if n.isInside offset then none
  else if d.isKey n then
    let property ← d.parent? n
    some ⟨n, property.value?.getD property⟩
  else some ⟨n, n⟩

/-- The text about a target under a schema. -/
def HoverTarget.hover? (t : HoverTarget) (d : Literal) (index : LineIndex)
    (engine : Schema.Engine) (schema : Json) : Option Hover :=
  let schemas := d.schemasAlong engine schema (d.pathTo t.node)
  let value := if t.node.isProperty then none else some t.node.toJson
  (Schema.hoverText? schemas value).map fun text =>
    ⟨.markdown text, some (index.rangeOf t.shown.span)⟩

/-! ## Completion -/

/-- Whether a cursor is in a comment, where nothing is proposed. -/
def Literal.isInComment (d : Literal) (offset : Nat) : Bool :=
  d.comments.any fun c => c.start < offset && offset ≤ c.stop

/-- The character that ends just before an offset. -/
def Text.charBefore? (cs : Text) (offset : Nat) : Option Char :=
  if 0 < offset ∧ Text.isBoundary cs offset then (Text.takeBytes offset cs).getLast? else none

/-- The node that proposals are for.  Just after a closing bracket the cursor
    belongs to what is around the brackets. -/
def Literal.completionNode? (d : Literal) (cs : Text) (offset : Nat) : Option Node :=
  (d.nodeAt? offset true).bind fun n =>
    let closer : Option Char := match n with
      | .object .. => some '}'
      | .array .. => some ']'
      | _ => none
    if offset = n.stop ∧ closer.isSome ∧ Text.charBefore? cs offset = closer then d.parent? n
    else some n

/-- The extent that a proposal replaces: the atom under the cursor, or the word
    before it. -/
def overwritten (node : Option Node) (cs : Text) (offset : Nat) : Span :=
  let word : Span := ⟨Text.wordStart cs offset, offset⟩
  match node with
  | some n@(.atom ..) => if n.offset ≤ offset ∧ offset ≤ n.stop then n.span else word
  | _ => word

/-- A place for a key. -/
structure KeySite where
  object : Node
  /-- The property whose key is being changed. -/
  current : Option Node
  /-- Whether the colon is missing. -/
  addValue : Bool
deriving Repr, Inhabited

/-- The place for a key at a node: its own if it is one, or the object. -/
def Literal.keySite? (d : Literal) (n : Node) : Option KeySite :=
  if d.isKey n then do
    let property ← d.parent? n
    some ⟨← d.parent? property, some property, property.value?.isNone⟩
  else if n.isObject then some ⟨n, none, true⟩
  else none

/-- The keys that a schema proposes besides those in `seen`, and what is seen
    then. -/
def keyItems (root schema : Json) (range : Range) (addValue : Bool) (seen : List String) :
    List CompletionItem × List String :=
  (((schema.member? "properties").bind Json.asObject?).getD []).foldl
    (fun (items, seen) (key, sub) =>
      if seen.contains key then (items, seen)
      else
        (items ++ [Schema.keyItem key (Schema.resolveValue root sub) range addValue],
          seen ++ [key]))
    ([], seen)

/-- The keys proposed at a place. -/
def KeySite.items (site : KeySite) (d : Literal) (engine : Schema.Engine) (schema : Json)
    (range : Range) : List CompletionItem :=
  let others := site.object.children.filter fun p => some p.id ≠ site.current.map Node.id
  let seen := others.filterMap Node.keyText?
  ((d.schemasAlong engine schema (d.pathTo site.object)).foldl
    (fun (items, seen) s =>
      let (more, seen) := keyItems schema s range site.addValue seen
      (items ++ more, seen))
    ([], seen)).1

/-- The first of each group of proposals with one label. -/
def distinctItems (seen : List String) : List CompletionItem → List CompletionItem
  | [] => []
  | i :: is =>
    if seen.contains i.label then distinctItems seen is
    else i :: distinctItems (i.label :: seen) is

/-- The path of the value to be completed at a node, if the cursor is at a value. -/
def Literal.valuePath? (d : Literal) (n : Node) (offset : Nat) : Option (List PathStep) :=
  match n with
  | .property _ colon _ value =>
    if colon.any (· < offset) ∧ offset ≤ value.stop then some (d.pathTo n) else none
  | .hole _ colon _ => if colon.any (· < offset) then some (d.pathTo n) else none
  | .array _ items =>
    some (d.pathTo n ++ [⟨.index (items.takeWhile fun i => i.stop < offset).length, none⟩])
  | .object .. => none
  | .atom .. =>
    match d.parent? n with
    | some p => some (d.pathTo (if p.isProperty then p else n))
    | none => some (d.pathTo n)

/-- The values proposed at the end of a path. -/
def Literal.valueItems (d : Literal) (engine : Schema.Engine) (schema : Json)
    (path : List PathStep) (range : Range) : List CompletionItem :=
  distinctItems [] ((d.schemasAlong engine schema path).flatMap fun s => Schema.valueItems s range)

/-- The proposals at an offset under a schema. -/
def Literal.complete (d : Literal) (cs : Text) (index : LineIndex) (offset : Nat)
    (engine : Schema.Engine) (schema : Json) : List CompletionItem :=
  let node := d.completionNode? cs offset
  let range := index.rangeOf (overwritten node cs offset)
  match node with
  | none => d.valueItems engine schema [] range
  | some n =>
    match d.keySite? n with
    | some site => if site.object.offset = offset then [] else site.items d engine schema range
    | none =>
      match d.valuePath? n offset with
      | some path => d.valueItems engine schema path range
      | none => []

end AnnotatedJson
