/-
  Finding one's way in a literal.

  * `Node.deepest` is the smallest node at an offset;
  * `Node.find?` finds a node by its number, `Node.parent?` the node above it;
  * `Node.pathTo?` is the way down to a node: keys and indices;
  * `Node.property?` looks a key up in an object;
  * `Node.toJson` is the value that a node stands for.
-/
import AnnotatedJson.Json.Segment
import AnnotatedJson.Literal.Node

namespace AnnotatedJson

/-- A step of a path with the value it reaches, if there is one. -/
structure PathStep where
  segment : Segment
  node : Option Node
deriving Repr, Inhabited

/-- Whether an offset lies in the extent of a node, and at its end if `right`
    says so.  An empty extent holds no offset. -/
def Mark.covers (m : Mark) (offset : Nat) (right : Bool) : Bool :=
  m.length ≠ 0 && ((m.offset ≤ offset && offset < m.stop) || (right && offset = m.stop))

namespace Node

/-! ## By offset -/

mutual

/-- The smallest node under `n` at an offset, the first of two that touch. -/
def deepest (offset : Nat) (right : Bool) : Node → Option Node
  | n@(atom m _) => if m.covers offset right then some n else none
  | n@(array m items) =>
    if m.covers offset right then some ((deepestOf offset right items).getD n) else none
  | n@(object m properties) =>
    if m.covers offset right then some ((deepestOf offset right properties).getD n) else none
  | n@(property m _ key value) =>
    if m.covers offset right then
      let inKey := if offset < key.offset then none else deepest offset right key
      let inValue :=
        if offset < key.offset ∨ offset < value.offset then none else deepest offset right value
      some ((inKey.or inValue).getD n)
    else none
  | n@(hole m _ key) =>
    if m.covers offset right then
      some ((if offset < key.offset then none else deepest offset right key).getD n)
    else none

/-- The smallest node at an offset under the first of some siblings that has
    one; siblings after the offset are not looked at. -/
def deepestOf (offset : Nat) (right : Bool) : List Node → Option Node
  | [] => none
  | n :: ns =>
    if offset < n.offset then none
    else
      match deepest offset right n with
      | some found => some found
      | none => deepestOf offset right ns

end

/-! ## By number -/

mutual

/-- The nodes under a node, the node itself first, each with the number of the
    node above it. -/
def listing (parent : Option Nat) : Node → List (Option Nat × Node)
  | n@(atom _ _) => [(parent, n)]
  | n@(array m items) => (parent, n) :: listingOf (some m.id) items
  | n@(object m properties) => (parent, n) :: listingOf (some m.id) properties
  | n@(property m _ key value) =>
    (parent, n) :: (listing (some m.id) key ++ listing (some m.id) value)
  | n@(hole m _ key) => (parent, n) :: listing (some m.id) key

/-- The nodes under some siblings. -/
def listingOf (parent : Option Nat) : List Node → List (Option Nat × Node)
  | [] => []
  | n :: ns => listing parent n ++ listingOf parent ns

end

/-- The node with a number. -/
def find? (n : Node) (id : Nat) : Option Node :=
  ((n.listing none).find? fun entry => entry.2.id = id).map (·.2)

/-- The node above the node with a number. -/
def parent? (n : Node) (id : Nat) : Option Node :=
  ((n.listing none).find? fun entry => entry.2.id = id).bind fun entry =>
    entry.1.bind n.find?

/-- Whether the node with a number is the key of a property. -/
def isKey (n : Node) (id : Nat) : Bool :=
  match (n.parent? id).bind key? with
  | some key => key.id = id
  | none => false

/-! ## Paths -/

/-- The step from an object through one of its properties. -/
def step (property : Node) : PathStep :=
  ⟨.key (property.keyText?.getD ""), property.value?⟩

mutual

/-- The way from a node down to the node with a number.  A property and its key
    are reached by the property's step. -/
def pathTo? (id : Nat) : Node → Option (List PathStep)
  | atom m _ => if m.id = id then some [] else none
  | array m items => if m.id = id then some [] else itemPath? id 0 items
  | object m properties => if m.id = id then some [] else memberPath? id properties
  | n@(property m _ key value) =>
    if m.id = id ∨ key.id = id then some [n.step]
    else (pathTo? id value).map (n.step :: ·)
  | n@(hole m _ key) => if m.id = id ∨ key.id = id then some [n.step] else none

/-- The way to a node through the items of an array. -/
def itemPath? (id : Nat) (position : Nat) : List Node → Option (List PathStep)
  | [] => none
  | n :: ns =>
    match pathTo? id n with
    | some steps => some (⟨.index position, some n⟩ :: steps)
    | none => itemPath? id (position + 1) ns

/-- The way to a node through the properties of an object. -/
def memberPath? (id : Nat) : List Node → Option (List PathStep)
  | [] => none
  | n :: ns =>
    match pathTo? id n with
    | some steps => some steps
    | none => memberPath? id ns

end

/-- The first property of an object with a key. -/
def property? (n : Node) (key : String) : Option Node :=
  match n with
  | object _ properties => properties.find? fun p => p.keyText? = some key
  | _ => none

/-- The value of the first property of an object with a key. -/
def valueOf? (n : Node) (key : String) : Option Node := (n.property? key).bind value?

/-! ## Values -/

/-- The number that a literal stands for: an integer if it is written as one and
    lies below 2^63 in size; nothing if it is infinite. -/
def numberJson (value : Binary64) (integral : Bool) : Json :=
  match integral, value.toInt? with
  | true, some n =>
    if n.natAbs < 0x8000000000000000 then .number (.int n) else .number (.float value)
  | _, _ => if value.isFinite then .number (.float value) else .null

/-- The value of an atom. -/
def atomJson : Atom → Json
  | .null => .null
  | .boolean b => .bool b
  | .number value integral => numberJson value integral
  | .string s => .string s

mutual

/-- The value that a node stands for.  Holes are left out of objects, and of two
    properties with one key the later gives the value. -/
def toJson : Node → Json
  | atom _ a => atomJson a
  | array _ items => .array (itemsJson items)
  | object _ properties => .object (membersJson [] properties)
  | property _ _ _ value => toJson value
  | hole .. => .null

/-- The values of the items of an array. -/
def itemsJson : List Node → List Json
  | [] => []
  | n :: ns => toJson n :: itemsJson ns

/-- The members of an object, added to those in `seen`. -/
def membersJson (seen : List (String × Json)) : List Node → List (String × Json)
  | [] => seen
  | n :: ns =>
    match n with
    | property _ _ key value =>
      membersJson (Json.insert (key.text?.getD "") (toJson value) seen) ns
    | _ => membersJson seen ns

end

end Node

namespace Literal

/-- The smallest node of a literal at an offset. -/
def nodeAt? (d : Literal) (offset : Nat) (right : Bool) : Option Node :=
  d.root.bind (·.deepest offset right)

/-- The node of a literal with a number. -/
def find? (d : Literal) (id : Nat) : Option Node := d.root.bind (·.find? id)

/-- Whether a node of a literal is the key of a property. -/
def isKey (d : Literal) (n : Node) : Bool := d.root.any (·.isKey n.id)

/-- The node of a literal above a node. -/
def parent? (d : Literal) (n : Node) : Option Node := d.root.bind (·.parent? n.id)

/-- The way from the root of a literal to a node. -/
def pathTo (d : Literal) (n : Node) : List PathStep := (d.root.bind (·.pathTo? n.id)).getD []

/-- The value of a literal. -/
def toJson? (d : Literal) : Option Json := d.root.map Node.toJson

end Literal

end AnnotatedJson
