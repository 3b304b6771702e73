/-
  JSON forms of a parsed literal: its nodes, errors and paths.
-/
import AnnotatedJson.Literal.Path
import AnnotatedJson.Literal.Repair
import AnnotatedJson.Literal.Token
import AnnotatedJson.Protocol.Basic

namespace AnnotatedJson

/-- A token: kind, offset, length, content and fault. -/
def Token.toJson (t : Token) : Json :=
  .array [.string t.kind.name, .ofNat t.span.start, .ofNat (t.span.stop - t.span.start),
    .ofText t.value, .string ((t.fault.map Fault.name).getD "None")]

/-- A syntax error: name and number of its code, extent and message. -/
def SyntaxError.toJson (e : SyntaxError) : Json :=
  .array [.string e.problem.code.name, .ofNat e.problem.code.number, e.span.toJson,
    .string e.problem.message]

/-- The bits of a double as sixteen hexadecimal digits. -/
def Binary64.hexText (x : Binary64) : String :=
  let ds := Nat.toDigits 16 x.toBits
  String.ofList (List.replicate (16 - ds.length) '0' ++ ds)

namespace Node

/-- The number of a node that may be absent. -/
def idJson (n : Option Node) : Json := .ofOption (n.map fun n => .ofNat n.id)

/-- What a node shows besides its number, kind, extent and place. -/
def details : Node → List (String × Json)
  | atom _ .null => []
  | atom _ (.boolean b) => [("value", .bool b)]
  | atom _ (.number x integral) => [("bits", .string x.hexText), ("integer", .bool integral)]
  | atom _ (.string s) => [("value", .string s)]
  | array _ items => [("children", .array (items.map fun n => .ofNat n.id))]
  | object _ properties => [("children", .array (properties.map fun n => .ofNat n.id))]
  | property _ colon key value =>
    [("key", .ofNat key.id), ("valueNode", .ofNat value.id),
      ("colon", .ofOption (colon.map .ofNat))]
  | hole _ colon key =>
    [("key", .ofNat key.id), ("valueNode", .null), ("colon", .ofOption (colon.map .ofNat))]

/-- A node with the number of the node above it. -/
def report (parent : Option Nat) (n : Node) : Json :=
  .object ([("id", .ofNat n.id), ("type", .string n.typeName), ("span", n.span.toJson),
    ("parent", .ofOption (parent.map .ofNat))] ++ n.details)

end Node

/-- A segment of a path. -/
def Segment.toJson : Segment → Json
  | .key name => .string name
  | .index i => .ofNat i

/-- A step of a path with the number of the value it reaches. -/
def PathStep.toJson (s : PathStep) : Json := .array [s.segment.toJson, Node.idJson s.node]

namespace Literal

/-- The syntax errors of a literal. -/
def errorsJson (d : Literal) : Json := .array (d.errors.map SyntaxError.toJson)

/-- A literal: its nodes by number, its errors and comments. -/
def report (d : Literal) : Json :=
  let nodes := (d.root.map (·.listing none)).getD []
  let sorted := nodes.mergeSort fun a b => a.2.id ≤ b.2.id
  .object [("root", Node.idJson d.root), ("count", .ofNat d.count),
    ("nodes", .array (sorted.map fun (parent, n) => n.report parent)),
    ("errors", d.errorsJson), ("comments", .array (d.comments.map Span.toJson))]

end Literal

/-! ## Reading corrections -/

/-- Reads a pair of offsets. -/
def Span.ofJson? : Json → Option Span
  | .array [a, b] => do some ⟨← a.asNat?, ← b.asNat?⟩
  | _ => none

/-- Reads an excerpt. -/
def Excerpt.ofJson? (v : Json) : Option Excerpt := do
  some ⟨← (← v.member? "range") |> Span.ofJson?, ← (← v.member? "value").asString?⟩

/-- Reads a correction. -/
def Correction.ofJson? (v : Json) : Option Correction := do
  some ⟨← (← v.member? "range") |> Span.ofJson?, ← (← v.member? "key") |> Excerpt.ofJson?,
    ← (← v.member? "value") |> Excerpt.ofJson?⟩

/-- The object form of an excerpt. -/
def Excerpt.toJson (e : Excerpt) : Json :=
  .object [("range", e.span.toJson), ("value", .string e.value)]

/-- The object form of a correction. -/
def Correction.toJson (c : Correction) : Json :=
  .object [("range", c.span.toJson), ("key", c.key.toJson), ("value", c.value.toJson)]

end AnnotatedJson
