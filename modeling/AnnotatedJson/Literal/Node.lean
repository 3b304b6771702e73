/-
  Nodes of a parsed literal.

  A node has a number, which tells it from every other node of its literal, and
  an extent in the text.  A property without a value is a *hole*.

  * `Node` is the tree, `Node.children` its branches in text order;
  * `Literal` is the result of parsing: tree, syntax errors and comments.
-/
import AnnotatedJson.Number.Binary64
import AnnotatedJson.Literal.Problem

namespace AnnotatedJson

/-- Number and extent of a node. -/
structure Mark where
  id : Nat
  offset : Nat
  length : Nat
deriving DecidableEq, Repr, Inhabited

/-- The offset just past a node. -/
def Mark.stop (m : Mark) : Nat := m.offset + m.length

/-- The extent of a node. -/
def Mark.span (m : Mark) : Span := ⟨m.offset, m.stop⟩

/-- A value without parts. -/
inductive Atom where
  | null
  | boolean (value : Bool)
  /-- A number, and whether it was written as an integer. -/
  | number (value : Binary64) (integral : Bool)
  | string (value : String)
deriving DecidableEq, Repr, Inhabited

/-- A node: a value, or a property of an object. -/
inductive Node where
  | atom (mark : Mark) (value : Atom)
  | array (mark : Mark) (items : List Node)
  | object (mark : Mark) (properties : List Node)
  /-- A property; `colon` is the offset of its colon. -/
  | property (mark : Mark) (colon : Option Nat) (key : Node) (value : Node)
  /-- A property without a value. -/
  | hole (mark : Mark) (colon : Option Nat) (key : Node)
deriving Repr, Inhabited

namespace Node

/-- Number and extent. -/
def mark : Node → Mark
  | atom m _ | array m _ | object m _ | property m _ _ _ | hole m _ _ => m

/-- The number of a node. -/
def id (n : Node) : Nat := n.mark.id

/-- The offset at which a node starts. -/
def offset (n : Node) : Nat := n.mark.offset

/-- The offset just past a node. -/
def stop (n : Node) : Nat := n.mark.stop

/-- The extent of a node. -/
def span (n : Node) : Span := n.mark.span

/-- The branches of a node in text order. -/
def children : Node → List Node
  | atom _ _ => []
  | array _ items => items
  | object _ properties => properties
  | property _ _ key value => [key, value]
  | hole _ _ key => [key]

/-- Whether a node is a property, with or without a value. -/
def isProperty : Node → Bool
  | property .. | hole .. => true
  | _ => false

/-- Whether a node is an object. -/
def isObject : Node → Bool
  | object .. => true
  | _ => false

/-- Whether a node is an array. -/
def isArray : Node → Bool
  | array .. => true
  | _ => false

/-- The text of a string node. -/
def text? : Node → Option String
  | atom _ (.string s) => some s
  | _ => none

/-- The key of a property. -/
def key? : Node → Option Node
  | property _ _ key _ | hole _ _ key => some key
  | _ => none

/-- The text of the key of a property. -/
def keyText? (n : Node) : Option String := n.key?.bind text?

/-- The value of a property. -/
def value? : Node → Option Node
  | property _ _ _ value => some value
  | _ => none

/-- The name of a kind of node; the types of JSON Schema among them. -/
def typeName : Node → String
  | atom _ .null => "null"
  | atom _ (.boolean _) => "boolean"
  | atom _ (.number _ _) => "number"
  | atom _ (.string _) => "string"
  | array .. => "array"
  | object .. => "object"
  | property .. | hole .. => "property"

end Node

/-- A parsed literal. -/
structure Literal where
  root : Option Node
  /-- How many nodes were numbered. -/
  count : Nat
  errors : List SyntaxError
  comments : List Span
deriving Repr, Inhabited

end AnnotatedJson
