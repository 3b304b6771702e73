/-
  Repairing a parsed literal.

  A literal of the host language is not quite JSON.  Three repairs make it fit
  for hovering and completion:

  * `Literal.insertSchema` puts a `$schema` property in front;
  * `Literal.fillHoles` gives holes the values recorded by corrections;
  * `Literal.dropShorthandErrors` forgets the errors that shorthand causes.

  Nodes that are added are numbered after all others.  The `$schema` property
  has no extent, so that no offset lies in it.
-/
import AnnotatedJson.Literal.Correction
import AnnotatedJson.Literal.Path

namespace AnnotatedJson

/-- The key that names the schema of a literal. -/
def schemaKey : String := "$schema"

namespace Literal

/-! ## The schema property -/

/-- A property `$schema` without extent. -/
def schemaProperty (id offset : Nat) (uri : String) : Node :=
  .property ⟨id, offset, 0⟩ none (.atom ⟨id + 1, offset, 0⟩ (.string schemaKey))
    (.atom ⟨id + 2, offset, 0⟩ (.string uri))

/-- Puts `$schema` in front of the properties of the root, if the root is an
    object without one; tells whether it did. -/
def insertSchema (d : Literal) (uri : String) : Bool × Literal :=
  match d.root with
  | some root@(.object m properties) =>
    if (root.property? schemaKey).isSome then (false, d)
    else
      (true, { d with
        root := some (.object m (schemaProperty d.count m.offset uri :: properties))
        count := d.count + 3 })
  | _ => (false, d)

/-! ## Holes -/

/-- The last correction that covers an extent. -/
def correctionFor? (corrections : List Correction) (m : Mark) : Option Correction :=
  corrections.reverse.find? fun c => c.span.start ≤ m.offset && m.stop ≤ c.span.stop

/-- A hole filled by a correction.  The property is extended over its value. -/
def fill (m : Mark) (colon : Option Nat) (key : Node) (c : Correction) (id : Nat) : Node :=
  let span := c.value.span
  .property ⟨m.id, m.offset, max m.length (span.stop - m.offset)⟩ colon key
    (.atom ⟨id, span.start, span.stop - span.start⟩ (.string c.value.value))

mutual

/-- Fills the holes under a node; the number of the next node is passed along. -/
def fillNode (corrections : List Correction) (next : Nat) : Node → Node × Nat
  | n@(.atom _ _) => (n, next)
  | .array m items =>
    let (items, next) := fillNodes corrections next items
    (.array m items, next)
  | .object m properties =>
    let (properties, next) := fillNodes corrections next properties
    (.object m properties, next)
  | .property m colon key value =>
    let (value, next) := fillNode corrections next value
    (.property m colon key value, next)
  | .hole m colon key =>
    match correctionFor? corrections m with
    | some c => (fill m colon key c next, next + 1)
    | none => (.hole m colon key, next)

/-- Fills the holes under some siblings. -/
def fillNodes (corrections : List Correction) (next : Nat) : List Node → List Node × Nat
  | [] => ([], next)
  | n :: ns =>
    let (n, next) := fillNode corrections next n
    let (ns, next) := fillNodes corrections next ns
    (n :: ns, next)

end

/-- Gives every hole that a correction covers its value; tells how many. -/
def fillHoles (d : Literal) (corrections : List Correction) : Nat × Literal :=
  match d.root with
  | none => (0, d)
  | some root =>
    let (root, next) := fillNode corrections d.count root
    (next - d.count, { d with root := some root, count := next })

/-! ## Errors -/

/-- Whether an error is one that shorthand causes. -/
def isShorthandError (code : ErrorCode) : Bool :=
  code = .undefined || code = .commaOrCloseBraceExpected || code = .trailingComma

/-- Forgets the errors that shorthand causes. -/
def dropShorthandErrors (d : Literal) : Literal :=
  { d with errors := d.errors.filter fun e => !isShorthandError e.problem.code }

end Literal

end AnnotatedJson
