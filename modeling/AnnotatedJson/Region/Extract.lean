/-
  Annotated literals of a host document.

  A comment whose label is bound to a schema annotates what follows it.  The
  object literal there becomes a region; nothing inside a region is looked at.

  * `annotated?` finds the object that an annotated node means;
  * `Region.ofTree` lists the regions of a text with a parse tree, `Region.extract` those of a
    text.
-/
import AnnotatedJson.Host.Parse
import AnnotatedJson.Region.Basic
import AnnotatedJson.Region.Label
import AnnotatedJson.Settings.Basic

namespace AnnotatedJson

/-- How deep the tree of a document is looked at. -/
def maxRegionDepth : Nat := 256

/-! ## The annotated object -/

/-- The value of the first variable that a declaration declares. -/
def firstValue? (n : HostNode) : Option HostNode :=
  (n.children.find? fun c => c.kind = .variableDeclarator).bind (·.field? .value)

/-- What a node usually means when it is annotated. -/
def naturalTarget? (n : HostNode) : Option HostNode :=
  match n.kind with
  | .pair => n.field? .value
  | .exportStatement => (n.field? .value).or ((n.field? .declaration).bind firstValue?)
  | .lexicalDeclaration | .variableDeclaration => firstValue? n
  | .expressionStatement =>
    (n.children.head?.filter fun e => e.kind = .assignmentExpression).bind (·.field? .right)
  | .assignmentExpression => n.field? .right
  | _ => none

mutual

/-- The first object at or under a node at a depth. -/
def firstObject? (depth : Nat) : HostNode → Option HostNode
  | .node kind role span children =>
    if maxRegionDepth < depth then none
    else if kind = .object then some (.node kind role span children)
    else firstObjectOf? (depth + 1) children

/-- The first object at or under some siblings at a depth.  Extra nodes are passed over. -/
def firstObjectOf? (depth : Nat) : List HostNode → Option HostNode
  | [] => none
  | n :: ns =>
    if n.role = .extra then firstObjectOf? depth ns
    else
      match firstObject? depth n with
      | some found => some found
      | none => firstObjectOf? depth ns

end

/-- The object that an annotated node at a depth means: its natural target if that
    is an object, or else the first object in it. -/
def annotated? (n : HostNode) (depth : Nat) : Option HostNode :=
  match (naturalTarget? n).filter fun t => t.kind = .object with
  | some t => some t
  | none => firstObject? depth n

/-! ## Corrections -/

/-- The text of a node. -/
def HostNode.source (cs : Text) (n : HostNode) : Text := (Text.slice? cs n.span).getD []

/-- A text without its first and last character. -/
def withoutQuotes? (cs : Text) : Option Text :=
  match cs with
  | _ :: rest@(_ :: _) => some rest.dropLast
  | _ => none

/-- The text of a value that is a name or a string, but not a string of JSON; a
    template with substitutions is no such value. -/
def shorthandText? (cs : Text) (value : HostNode) : Option Text :=
  let source := value.source cs
  match value.kind with
  | .identifier => some source
  | .string => if source.head? = some '\'' then withoutQuotes? source else none
  | .templateString =>
    if value.children.any fun c => c.kind = .templateSubstitution then none
    else withoutQuotes? source
  | _ => none

/-- The correction of a pair, if its value needs one. -/
def correction? (cs : Text) (pair : HostNode) : Option Correction := do
  let key ← pair.field? .key
  let value ← pair.field? .value
  let text ← shorthandText? cs value
  some ⟨pair.span, ⟨key.span, String.ofList (key.source cs)⟩, ⟨value.span, String.ofList text⟩⟩

/-- The corrections of the pairs of an object. -/
def corrections (cs : Text) (object : HostNode) : List Correction :=
  (object.children.filter fun c => c.kind = .pair).filterMap (correction? cs)

/-! ## Regions -/

/-- Whether only blanks stand between two places. -/
def blanksBetween (cs : Text) (start stop : Nat) : Bool :=
  match Text.slice? cs ⟨start, stop⟩ with
  | some gap => gap.all Text.isBlank
  | none => false

/-- The binding of the label of a comment. -/
def bindingOf? (cs : Text) (bindings : List SchemaBinding) (comment : Span) : Option SchemaBinding :=
  let label := String.ofList (commentLabel ((Text.slice? cs comment).getD []))
  bindings.find? fun b => b.label = label

/-- The last of some comments with a bound label, if only blanks stand between
    them and a node.  The comments are given last first. -/
def annotation? (cs : Text) (bindings : List SchemaBinding) (comments : List Span) (n : HostNode) :
    Option (Span × SchemaBinding) :=
  match comments with
  | [] => none
  | last :: _ =>
    if blanksBetween cs last.stop n.span.start then
      comments.findSome? fun c => (bindingOf? cs bindings c).map fun b => (c, b)
    else none

/-- The region of an annotated object. -/
def Region.ofObject (cs : Text) (object : HostNode) (comment : Span) (b : SchemaBinding) : Region where
  span := object.span
  language := literalLanguage
  kind := .custom
  label := some b.label
  schemaUri := some b.schema
  text := some (Text.maskPrefix cs object.span.start object.span.stop)
  corrections := AnnotatedJson.corrections cs object
  annotation := some comment

/-- A comment added to those before it, which it joins if only blanks stand
    between. -/
def joinComment (cs : Text) (comments : List Span) (c : Span) : List Span :=
  match comments with
  | [] => [c]
  | last :: _ => if blanksBetween cs last.stop c.start then c :: comments else [c]

mutual

/-- The regions under a node at a depth. -/
def regionsUnder (cs : Text) (bindings : List SchemaBinding) (depth : Nat) : HostNode → List Region
  | .node _ _ _ children =>
    if maxRegionDepth < depth then [] else regionsAmong cs bindings depth [] children

/-- The regions among some siblings at a depth; `comments` are those right before
    them, last first. -/
def regionsAmong (cs : Text) (bindings : List SchemaBinding) (depth : Nat) (comments : List Span) :
    List HostNode → List Region
  | [] => []
  | n :: ns =>
    if n.kind = .comment then regionsAmong cs bindings depth (joinComment cs comments n.span) ns
    else
      let found := (annotation? cs bindings comments n).bind fun (c, b) =>
        (annotated? n depth).map fun object => Region.ofObject cs object c b
      match found with
      | some r => r :: regionsAmong cs bindings depth [] ns
      | none =>
        regionsUnder cs bindings (depth + 1) n ++ regionsAmong cs bindings depth [] ns

end

/-- The regions of a host text with a parse tree, in order. -/
def Region.ofTree (bindings : List SchemaBinding) (cs : Text) (root : HostNode) : List Region :=
  if bindings.isEmpty then [] else regionsUnder cs bindings 0 root

/-- The regions of a host text, in order. -/
def Region.extract (dialect : Dialect) (bindings : List SchemaBinding) (cs : Text) : List Region :=
  Region.ofTree bindings cs (HostNode.parse dialect cs)

end AnnotatedJson
