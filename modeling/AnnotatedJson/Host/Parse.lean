/-
  Reading a host document.

  * `HostGrammar.ofDepth` makes the readers for constructs nested to a depth;
  * `HostNode.parse` reads a text into a tree.

  A token that starts no statement is passed over, so that reading always gets to
  the end of the text.
-/
import AnnotatedJson.Host.Element
import AnnotatedJson.Host.Statement

namespace AnnotatedJson

/-- Readers that may go one level deeper than the given ones. -/
def HostGrammar.deeper (g : HostGrammar) : HostGrammar :=
  ⟨g.readExpression, g.readAccess, g.readOperand, g.readStatement, g.readBinding, g.readType,
    g.readElement⟩

/-- Readers that go `n` levels deeper than the given ones. -/
def HostGrammar.ofDepth : Nat → HostGrammar → HostGrammar
  | 0, g => g
  | n + 1, g => ofDepth n g.deeper

namespace HostNode

open HostParser

/-- The next statement; or the next token, if no statement starts with it. -/
def item (g : HostGrammar) : HostParser (Option HostNode) := do
  if (← here).atEnd then return none
  match ← attempt g.statement with
  | some n => return some n
  | none => return some (← leaf .other)

/-- The first line, if it names an interpreter. -/
def interpreterLine (cs : Text) : Text :=
  if ['#', '!'].isPrefixOf cs then cs.takeWhile (· ≠ '\n') else []

/-- The tree of a text. -/
def parse (dialect : Dialect) (cs : Text) : HostNode :=
  let line := interpreterLine cs
  let start := (HostCursor.settle dialect [] (Text.bytes line) (cs.drop line.length))
  let g := HostGrammar.ofDepth (4 * cs.length + 16) HostGrammar.empty
  let first := if line.isEmpty then [] else [node .other .plain ⟨0, Text.bytes line⟩ []]
  let whole : Span := ⟨0, Text.bytes cs⟩
  match (many (item g)) start with
  | some (items, p) =>
    (node .other .plain whole (first ++ items)).withComments p.passed.reverse
  | none => node .other .plain whole first

end HostNode

end AnnotatedJson
