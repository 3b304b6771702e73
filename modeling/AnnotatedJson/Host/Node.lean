/-
  Parse trees of host documents.

  A tree holds the named parts of a text: statements, expressions, names, and the
  comments between them.  Kinds that nothing depends on are all `other`.

  * `HostNode` is a tree, `HostNode.field?` a child by its role;
  * `HostNode.withComments` puts comments where they belong: below the smallest
    node that holds what is before and after them.
-/
import AnnotatedJson.Text.Basic

namespace AnnotatedJson

/-- What a node of the tree is. -/
inductive HostKind where
  | comment
  | object
  | pair
  | exportStatement
  | lexicalDeclaration
  | variableDeclaration
  | variableDeclarator
  | expressionStatement
  | assignmentExpression
  | identifier
  | string
  | templateString
  | templateSubstitution
  | array
  | spread
  | other
deriving DecidableEq, Repr, Inhabited

/-- What a node is to the node above it. -/
inductive HostRole where
  | key
  | value
  | declaration
  | right
  | plain
  /-- Not called for by the grammar: a comment, or what is left over after an error. -/
  | extra
deriving DecidableEq, Repr, Inhabited

/-- A node of the tree. -/
inductive HostNode where
  | node (kind : HostKind) (role : HostRole) (span : Span) (children : List HostNode)
deriving Repr, Inhabited

namespace HostNode

/-- What a node is. -/
def kind : HostNode → HostKind
  | node k _ _ _ => k

/-- What a node is to the node above it. -/
def role : HostNode → HostRole
  | node _ r _ _ => r

/-- The extent of a node. -/
def span : HostNode → Span
  | node _ _ s _ => s

/-- The parts of a node in text order. -/
def children : HostNode → List HostNode
  | node _ _ _ cs => cs

/-- The node in another role. -/
def withRole (n : HostNode) (role : HostRole) : HostNode := node n.kind role n.span n.children

/-- The first child in a role. -/
def field? (n : HostNode) (role : HostRole) : Option HostNode :=
  n.children.find? fun c => c.role = role

/-- The node of a comment. -/
def ofComment (s : Span) : HostNode := node .comment .extra s []

mutual

/-- A node with the comments that lie in its extent, in order. -/
def withComments (comments : List Span) : HostNode → HostNode
  | node k r s children => node k r s (insertComments comments children)

/-- Siblings with the comments before, in and after them. -/
def insertComments (comments : List Span) : List HostNode → List HostNode
  | [] => comments.map ofComment
  | child :: rest =>
    let before := comments.takeWhile fun c => c.start < child.span.start
    let others := comments.dropWhile fun c => c.start < child.span.start
    let inside := others.takeWhile fun c => c.stop ≤ child.span.stop
    let after := others.dropWhile fun c => c.stop ≤ child.span.stop
    before.map ofComment ++ withComments inside child :: insertComments after rest

end

end HostNode

end AnnotatedJson
