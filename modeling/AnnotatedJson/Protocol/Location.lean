/-
  Answers that point at places: locations, highlights, symbols and links.
-/
import AnnotatedJson.Protocol.Basic
import AnnotatedJson.Uri.Basic

namespace AnnotatedJson

/-- A range of a document. -/
structure Location where
  uri : Uri
  range : Range
deriving DecidableEq, Repr, Inhabited

/-- The object form of a location. -/
def Location.toJson (l : Location) : Json :=
  .object [("uri", .string l.uri.toString), ("range", l.range.toJson)]

/-- A range to be highlighted. -/
structure Highlight where
  range : Range
deriving DecidableEq, Repr, Inhabited

/-- The object form of a highlight. -/
def Highlight.toJson (h : Highlight) : Json := .object [("range", h.range.toJson)]

/-- What a symbol is. -/
inductive SymbolKind where
  | module
  | property
  | object
deriving DecidableEq, Repr, Inhabited

/-- The number of a kind in the protocol. -/
def SymbolKind.number : SymbolKind → Nat
  | .module => 2
  | .property => 7
  | .object => 19

/-- A named place of a document. -/
structure DocumentSymbol where
  name : String
  kind : SymbolKind
  location : Location
  /-- The name of what the symbol belongs to. -/
  containerName : Option String := none
deriving DecidableEq, Repr, Inhabited

/-- The object form of a symbol. -/
def DocumentSymbol.toJson (s : DocumentSymbol) : Json :=
  .ofFields [("name", some (.string s.name)), ("kind", some (.ofNat s.kind.number)),
    ("location", some s.location.toJson), ("containerName", s.containerName.map .string)]

/-- A range that leads to a resource. -/
structure DocumentLink where
  range : Range
  target : Option Uri := none
  tooltip : Option String := none
deriving DecidableEq, Repr, Inhabited

/-- The object form of a link. -/
def DocumentLink.toJson (l : DocumentLink) : Json :=
  .ofFields [("range", some l.range.toJson), ("target", l.target.map fun u => .string u.toString),
    ("tooltip", l.tooltip.map .string)]

end AnnotatedJson
