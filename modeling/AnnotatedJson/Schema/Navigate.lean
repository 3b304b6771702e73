/-
  The subschemas that apply to a part of a document.

  A schema is a JSON value.  A schema that applies at a node brings others with
  it: the target of its `$ref`, the members of `allOf`, the alternatives of
  `anyOf` and `oneOf` that fit the node (all of them if none fits), and the
  branch of a condition.

  * `Schema.resolve` follows references within the root schema;
  * `Schema.fits` is the quick test that chooses between alternatives;
  * `Schema.expand` lists what a schema brings with it;
  * `Schema.children` lists the schemas of a key or an index;
  * `Schema.along` lists the schemas that apply at the end of a path.

  What the patterns for keys mean is not fixed here: an engine is given.
-/
import AnnotatedJson.Json.Pointer
import AnnotatedJson.Literal.Path

namespace AnnotatedJson.Schema

/-! ## References -/

/-- The target of a reference within the root schema. -/
def target? (root : Json) (reference : String) : Option Located :=
  match reference.toList with
  | '#' :: fragment => root.locate? (String.ofList fragment)
  | _ => none

/-- The target of the `$ref` of a schema. -/
def follow? (root schema : Json) : Option Located :=
  ((schema.member? "$ref").bind Json.asString?).bind (target? root)

/-- The last target of a chain of at most `n` references. -/
def chase? (root : Json) : Nat → Json → Option Located
  | 0, _ => none
  | n + 1, schema => (follow? root schema).map fun l => (chase? root n l.value).getD l

/-- The longest chain of references, and the deepest nesting of keywords, that is
    followed. -/
def maxDepth : Nat := 32

/-- A schema without its reference. -/
def resolve (root : Json) (l : Located) : Located := (chase? root maxDepth l.value).getD l

/-- The value of a schema without its reference. -/
def resolveValue (root schema : Json) : Json :=
  ((chase? root maxDepth schema).map Located.value).getD schema

/-! ## The quick test -/

/-- Whether a node is of a type. -/
def acceptsType (name : String) (n : Node) : Bool :=
  match name, n with
  | "integer", .atom _ (.number _ integral) => integral
  | _, _ => name == n.typeName

/-- Whether a node is of one of the types that the keyword `type` gives. -/
def fitsType (expected : Json) (n : Node) : Bool :=
  match expected with
  | .string name => acceptsType name n
  | .array names => (names.filterMap Json.asString?).any fun name => acceptsType name n
  | _ => true

/-- Whether a value obeys `const` and `enum`. -/
def fitsValue (schema value : Json) : Bool :=
  (match schema.member? "const" with
    | some constant => constant == value
    | none => true) &&
  match (schema.member? "enum").bind Json.asArray? with
  | some options => options.any (· == value)
  | none => true

/-- Whether a property, if it is there and has a value, obeys the `const` and
    `enum` of its schema. -/
def fitsProperty (root : Json) (n : Node) (key : String) (sub : Json) : Bool :=
  match n.valueOf? key with
  | some value => fitsValue (resolveValue root sub) value.toJson
  | none => true

/-- Whether a node passes the quick test of a schema: `type`, `const`, `enum`, and
    `const` and `enum` one level down. -/
def fits (root schema : Json) (n : Node) : Bool :=
  match resolveValue root schema with
  | .object members =>
    let schema := Json.object members
    (match schema.member? "type" with
      | some expected => fitsType expected n
      | none => true) &&
    fitsValue schema n.toJson &&
    match (schema.member? "properties").bind Json.asObject?, n with
    | some properties, .object .. => properties.all fun (key, sub) => fitsProperty root n key sub
    | _, _ => true
  | .bool b => b
  | _ => true

/-! ## Expansion -/

/-- The alternatives that fit a node; all of them if none does or there is no
    node. -/
def chosen (root : Json) (node : Option Node) (alternatives : List Located) : List Located :=
  match node with
  | none => alternatives
  | some n =>
    let fitting := alternatives.filter fun a => fits root a.value n
    if fitting.isEmpty then alternatives else fitting

/-- The items of an array under a keyword. -/
def listed (l : Located) (keyword : String) : List Located :=
  ((l.member? keyword).bind Located.items?).getD []

/-- The branch of a condition that a node takes. -/
def branch (root : Json) (node : Option Node) (l : Located) : List Located :=
  match l.member? "if", node with
  | some condition, some n =>
    (l.member? (if fits root condition.value n then "then" else "else")).toList
  | _, _ => []

/-- The schemas that a schema brings with it directly. -/
def brought (root : Json) (node : Option Node) (l : Located) : List Located :=
  listed l "allOf" ++ chosen root node (listed l "anyOf") ++ chosen root node (listed l "oneOf") ++
    branch root node l

/-- A schema and all that it brings with it, to a depth of `n` levels. -/
def expandTo (root : Json) (node : Option Node) : Nat → Located → List Located
  | 0, _ => []
  | n + 1, l =>
    if l.value.isObject then
      let l := resolve root l
      if l.value.isObject then
        l :: (brought root node l).flatMap (expandTo root node n)
      else []
    else []

/-- A schema and all that it brings with it. -/
def expand (root : Json) (node : Option Node) (l : Located) : List Located :=
  expandTo root node (maxDepth + 1) l

/-! ## Paths -/

/-- An engine for patterns: the keys that a pattern matches, unless the text is no
    pattern. -/
abbrev Engine : Type := String → Option (String → Bool)

variable (engine : Engine)

/-- Whether a key matches a pattern; a text that is no pattern matches nothing. -/
def keyMatches (pattern key : String) : Bool := (engine pattern).any fun accepts => accepts key

/-- The schemas of a key: its own and those of the patterns that it matches, or
    else the one for other keys. -/
def keyChildren (l : Located) (key : String) : List Located :=
  let own := ((l.member? "properties").bind (·.member? key)).toList
  let patterns := ((l.member? "patternProperties").bind Located.members?).getD []
  let found := own ++ (patterns.filter fun (p, _) => keyMatches engine p key).map (·.2)
  if found.isEmpty then (l.member? "additionalProperties").toList else found

/-- The list of schemas by position. -/
def tuple? (l : Located) : Option (List Located) :=
  match l.member? "prefixItems" with
  | some items => items.items?
  | none => (l.member? "items").bind Located.items?

/-- The schema of an index: the one at its position, or else the one for all
    items, or else the one for further items. -/
def indexChildren (l : Located) (i : Nat) : List Located :=
  match (tuple? l).bind (·[i]?) with
  | some item => [item]
  | none =>
    match l.member? "items" with
    | some items => if items.value.isObject then [items] else (l.member? "additionalItems").toList
    | none => (l.member? "additionalItems").toList

/-- The schemas of a segment. -/
def children (l : Located) : Segment → List Located
  | .key name => keyChildren engine l name
  | .index i => indexChildren l i

/-- The first of each group of schemas at one place. -/
def distinct (seen : List (List Segment)) : List Located → List Located
  | [] => []
  | l :: ls => if seen.contains l.steps then distinct seen ls else l :: distinct (l.steps :: seen) ls

/-- The schemas that apply one step further. -/
def advance (root : Json) (current : List Located) (s : PathStep) : List Located :=
  distinct [] (current.flatMap fun l => (children engine l s.segment).flatMap (expand root s.node))

/-- The schemas that apply at the end of a path in a document. -/
def along (root : Json) (document : Option Node) (path : List PathStep) : List Located :=
  path.foldl (advance engine root) (expand root document (.root root))

end AnnotatedJson.Schema
