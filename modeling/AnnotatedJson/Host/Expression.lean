/-
  Expressions of host documents.

  * `HostGrammar.primary` reads what has no operators around it;
  * `HostGrammar.readAccess` adds member accesses and calls, `readOperand` prefix
    and postfix operators, `readExpression` everything else.

  Operators of one strength group to the left, except powers.
-/
import AnnotatedJson.Host.Function

namespace AnnotatedJson.HostGrammar

variable (g : HostGrammar)

open HostParser

/-! ## Words -/

/-- The words that are no names. -/
def reservedWords : List String :=
  ["break", "case", "catch", "class", "const", "continue", "debugger", "default", "delete", "do",
    "else", "enum", "export", "extends", "finally", "for", "function", "if", "import", "in",
    "instanceof", "new", "return", "switch", "throw", "try", "typeof", "var", "void", "while", "with"]

/-- The words that stand for a value of their own. -/
def valueWords : List String := ["this", "super", "null", "true", "false", "undefined"]

/-! ## Literals -/

/-- The characters of a template up to a substitution or its end. -/
def templateChunk : Text → Text
  | [] => []
  | '\\' :: c :: cs => '\\' :: c :: templateChunk cs
  | '`' :: _ => []
  | '$' :: '{' :: _ => []
  | c :: cs => c :: templateChunk cs

/-- A template. -/
def template : HostParser HostNode :=
  within .templateString (do
    check ((← here).token.kind = .backtick)
    skip
    let parts ← many (do
      let p ← here
      let chunk := templateChunk p.raw
      match p.raw.drop chunk.length with
      | '$' :: '{' :: _ =>
        let start := p.stop + Text.bytes chunk
        set (p.skipRaw (chunk ++ ['$', '{']))
        let n ← g.expressions
        mark "\x7d"
        return some (← node .templateSubstitution start [n])
      | _ => return none)
    let p ← here
    let chunk := templateChunk p.raw
    check ((p.raw.drop chunk.length).head? = some '`')
    set (p.skipRaw (chunk ++ ['`']))
    return parts)

/-- A regular expression. -/
def regex : HostParser HostNode := do
  let p ← here
  match HostToken.regex? p.rest with
  | some t =>
    set (p.skip t.source)
    node .other p.start []
  | none => failure

/-- An element of an array or an argument of a call. -/
def spreadable : HostParser HostNode := do
  if ← atMark "..." then
    within .spread (do
      skip
      let n ← g.expression true
      return [n])
  else g.expression true

/-- The arguments of a call. -/
def callArguments : HostParser HostNode :=
  within .other (do
    mark "("
    listUntil ")" g.spreadable)

/-- An array. -/
def arrayLiteral : HostParser HostNode :=
  within .array (do
    mark "["
    listUntil "]" g.spreadable)

/-- Whether a token ends a member of an object. -/
def endsMember (p : HostCursor) : Bool := p.atMark "," || p.atMark "\x7d"

/-- The words that may stand before the name of a method. -/
def methodModifiers : List String := ["async", "get", "set", "static"]

/-- A member of an object: a pair, a method, a name that is its own value, or a
    spread.  A value that is missing is an empty name right after the colon. -/
def member : HostParser HostNode := do
  if ← atMark "..." then g.spreadable
  else
    let start := (← here).start
    let ms ← many (modifier? methodModifiers followsModifier)
    let asterisk ← mark? "*"
    let isWord := (← here).token.kind = .word
    let name ← g.propertyName
    let p ← here
    if p.atMark "(" || p.atMark "<" then
      let parts ← g.signature
      let body ← g.block false
      node .other start (ms.flatten ++ [name] ++ parts ++ [body])
    else
      check (ms.isEmpty && !asterisk)
      if ← mark? ":" then
        let p ← here
        let value ←
          if endsMember p then pure (.node .identifier .value ⟨p.stop, p.stop⟩ [])
          else pure ((← g.expression true).withRole .value)
        node .pair start [name.withRole .key, value]
      else if ← mark? "=" then
        let value ← g.expression true
        node .other start [name, value]
      else
        check isWord
        return name

/-- An object. -/
def objectLiteral : HostParser HostNode :=
  within .object (do
    mark "\x7b"
    listUntil "\x7d" g.member)

/-! ## Functions -/

/-- A function expression, from `function` on. -/
def functionExpression : HostParser (List HostNode) := do
  word "function"
  let _ ← mark? "*"
  let name ← if (← here).token.kind = .word then pure [← leaf .identifier] else pure []
  let parts ← g.signature
  let body ← g.block true
  return name ++ parts ++ [body]

/-- The parameters of an arrow function: a single name, or a list in brackets. -/
def arrowHead (types : Bool) : HostParser (List HostNode) := do
  let p ← here
  if p.token.kind = .word then
    check (!reservedWords.contains p.token.text)
    return [← leaf .identifier]
  else
    let generics ← g.typeParameters?
    let ps ← g.parameters
    let result ← if types then g.typeAnnotation? else pure []
    return generics ++ [ps] ++ result

/-- An arrow function. -/
def arrowFunction (types : Bool) : HostParser HostNode :=
  within .other (do
    let p ← here
    let next := p.advance
    if p.atWord "async" && !next.afterBreak && !next.atMark "=>" then skip
    let head ← g.arrowHead types
    mark "=>"
    let body ← if ← atMark "\x7b" then g.block true else g.expression types
    return head ++ [body])

/-- Whether an arrow function may start at a place. -/
def mayBeArrow (p : HostCursor) : Bool :=
  p.atMark "(" || p.atMark "<" ||
    (p.token.kind = .word && !reservedWords.contains p.token.text &&
      (p.advance.atMark "=>" || p.atWord "async"))

/-! ## Primary expressions -/

/-- An expression that starts with a word. -/
def wordExpression : HostParser HostNode := do
  let p ← here
  let next := p.advance
  match p.token.text with
  | "function" => within .other g.functionExpression
  | "class" =>
    within .other (do
      skip
      g.classTail)
  | "import" =>
    if next.atMark "." then
      within .other (do
        skip
        skip
        skip
        return [])
    else leaf .other
  | w =>
    if w == "async" && next.atWord "function" && !next.afterBreak then
      within .other (do
        skip
        g.functionExpression)
    else if valueWords.contains w then leaf .other
    else
      check (!reservedWords.contains w)
      leaf .identifier

/-- An expression in brackets, which may state its type. -/
def parenthesized : HostParser HostNode :=
  within .other (do
    mark "("
    let n ← g.expressions
    let type ← g.typeAnnotation?
    mark ")"
    return n :: type)

/-- An expression without operators around it. -/
def primary : HostParser HostNode := do
  let p ← here
  match p.token.kind with
  | .word => g.wordExpression
  | .number | .privateName => leaf .other
  | .string => leaf .string
  | .backtick => g.template
  | .eof => failure
  | .mark =>
    match p.token.text with
    | "(" => g.parenthesized
    | "[" => g.arrayLiteral
    | "\x7b" => g.objectLiteral
    | "<" => g.element
    | "/" | "/=" => regex
    | "@" =>
      within .other (do
        let ds ← g.decorators
        word "class"
        let tail ← g.classTail
        return ds ++ tail)
    | _ => failure

/-! ## Member accesses and calls -/

/-- A node made of an expression and what follows it. -/
def extend (n : HostNode) (parts : List HostNode) : HostParser HostNode :=
  node .other n.span.start (n :: parts)

/-- What follows an optional chain. -/
def chained : HostParser (List HostNode) := do
  let chain ← leaf .other
  let p ← here
  if p.atMark "(" then return [chain, ← g.callArguments]
  else if p.atMark "<" then
    let types ← g.typeArguments
    return [chain, types, ← g.callArguments]
  else if ← mark? "[" then
    let index ← g.expressions
    mark "]"
    return [chain, index]
  else return [chain, ← leaf .other]

/-- Type arguments with the call that they belong to. -/
def genericCall : HostParser (List HostNode) := do
  let types ← g.typeArguments
  let p ← here
  if p.atMark "(" then return [types, ← g.callArguments]
  else
    check (p.token.kind = .backtick)
    return [types, ← g.template]

/-- Type arguments without a call. -/
def instantiation : HostParser (List HostNode) := do
  let types ← g.typeArguments
  let p ← here
  check (p.afterBreak || p.atEnd || (p.token.kind = .mark &&
    [")", "]", "\x7d", ":", ";", ",", ".", "?.", "=", "==", "===", "!=", "!==", "&&", "||",
      "??"].contains
      p.token.text))
  return [types]

/-- What may follow an expression: one access, and a call if `calls` allows it. -/
def accessStep (calls : Bool) (n : HostNode) : HostParser (Option HostNode) := do
  let p ← here
  if p.token.kind = .backtick then return some (← extend n [← g.template])
  else if p.token.kind != .mark then return none
  else
    match p.token.text with
    | "." =>
      skip
      return some (← extend n [← leaf .other])
    | "?." => if calls then return some (← extend n (← g.chained)) else return none
    | "[" =>
      skip
      let index ← g.expressions
      mark "]"
      return some (← extend n [index])
    | "(" => if calls then return some (← extend n [← g.callArguments]) else return none
    | "!" =>
      if p.afterBreak then return none
      else
        skip
        return some (← extend n [])
    | "<" =>
      if calls then
        match ← attempt g.genericCall with
        | some parts => return some (← extend n parts)
        | none =>
          match ← attempt g.instantiation with
          | some parts => return some (← extend n parts)
          | none => return none
      else return none
    | _ => return none

/-- An expression with all accesses that follow it. -/
def accessLoop (calls : Bool) : Nat → HostNode → HostParser HostNode
  | 0, n => pure n
  | fuel + 1, n => do
    match ← g.accessStep calls n with
    | some n => accessLoop calls fuel n
    | none => return n

/-- The creation of an object. -/
def creation : HostParser HostNode := do
  let p ← here
  word "new"
  if ← mark? "." then
    skip
    node .other p.start []
  else
    let made ←
      if ← atWord "new" then g.access
      else g.accessLoop false ((← here).rest.length + 1) (← g.primary)
    let types ← if ← atMark "<" then pure ((← attempt g.typeArguments).toList) else pure []
    let arguments ← if ← atMark "(" then pure [← g.callArguments] else pure []
    node .other p.start ([made] ++ types ++ arguments)

/-- An expression as far as calls and member accesses go. -/
def readAccess : HostParser HostNode := do
  let first ← if ← atWord "new" then g.creation else g.primary
  g.accessLoop true ((← here).rest.length + 1) first

/-! ## Operators -/

/-- Whether nothing that could be awaited follows. -/
def endsOperand (p : HostCursor) : Bool :=
  p.atEnd || (p.token.kind = .mark && [")", ",", ";", "=", ".", ":", "]", "\x7d", "=>"].contains
    p.token.text)

/-- What binary operators are applied to: prefix and postfix operators included. -/
def readOperand : HostParser HostNode := do
  let p ← here
  let applied : HostParser HostNode := within .other (do
    skip
    let n ← g.operand
    return [n])
  if p.token.kind = .mark && ["!", "~", "+", "-", "++", "--"].contains p.token.text then applied
  else if p.token.kind = .word && ["typeof", "void", "delete"].contains p.token.text then applied
  else if p.atWord "await" && !endsOperand p.advance then applied
  else if p.atMark "<" && p.dialect = .typeScript then
    within .other (do
      let types ← g.typeArguments
      let n ← g.operand
      return [types, n])
  else
    let n ← g.access
    let p ← here
    if (p.atMark "++" || p.atMark "--") && !p.afterBreak then
      skip
      extend n []
    else return n

/-- How strongly a binary operator binds. -/
def strength? (t : HostToken) : Option Nat :=
  match t.kind with
  | .mark =>
    match t.text with
    | "??" => some 1
    | "||" => some 2
    | "&&" => some 3
    | "|" => some 4
    | "^" => some 5
    | "&" => some 6
    | "==" | "!=" | "===" | "!==" => some 7
    | "<" | ">" | "<=" | ">=" => some 8
    | "<<" | ">>" | ">>>" => some 9
    | "+" | "-" => some 10
    | "*" | "/" | "%" => some 11
    | "**" => some 12
    | _ => none
  | .word => if t.text == "in" || t.text == "instanceof" then some 8 else none
  | _ => none

/-- The strength of the operators that state a type. -/
def typeOperatorStrength : Nat := 8

/-- Two operands joined. -/
def join (left right : HostNode) : HostNode :=
  .node .other .plain ⟨left.span.start, right.span.stop⟩ [left, right]

/-- Joins pending operands whose operators bind at least as strongly as `least`.
    The nearest comes first. -/
def joinPending (least : Nat) : List (HostNode × Nat) → HostNode → List (HostNode × Nat) × HostNode
  | [], n => ([], n)
  | (left, s) :: rest, n =>
    if least ≤ s then joinPending least rest (join left n) else ((left, s) :: rest, n)

/-- Operands with operators between them; `pending` holds those that still lack
    their right side. -/
def operations : Nat → List (HostNode × Nat) → HostNode → HostParser HostNode
  | 0, pending, n => pure (joinPending 0 pending n).2
  | fuel + 1, pending, n => do
    let p ← here
    if (p.atWord "as" || p.atWord "satisfies") && !p.afterBreak then
      skip
      let type ← if ← atWord "const" then leaf .other else g.typeNode
      let (pending, n) := joinPending typeOperatorStrength pending n
      operations fuel pending (join n type)
    else
      match strength? p.token with
      | some s =>
        skip
        let right ← g.operand
        let (pending, n) := joinPending (if s = 12 then s + 1 else s) pending n
        operations fuel ((n, s) :: pending) right
      | none => return (joinPending 0 pending n).2

/-! ## Assignments -/

mutual

/-- The pattern that an expression on the left of an assignment stands for. -/
def toPattern : HostNode → HostNode
  | .node kind role span children =>
    if kind = .object ∨ kind = .array ∨ kind = .pair ∨ kind = .spread ∨ kind = .assignmentExpression
    then .node .other role span (toPatterns children)
    else .node kind role span children

/-- The patterns of some expressions. -/
def toPatterns : List HostNode → List HostNode
  | [] => []
  | n :: ns => toPattern n :: toPatterns ns

end

/-- The marks that change a variable. -/
def updateMarks : List String :=
  ["+=", "-=", "*=", "/=", "%=", "**=", "<<=", ">>=", ">>>=", "&=", "|=", "^=", "&&=", "||=", "??="]

/-- The two outcomes of a condition, after the question mark.  An arrow function
    in the first must not take the colon for itself. -/
def outcomes (types : Bool) : HostParser (List HostNode) := do
  let first (allowed : Bool) : HostParser HostNode := do
    let n ← g.expression allowed
    mark ":"
    return n
  let yes ← match ← attempt (first true) with
    | some n => pure n
    | none => first false
  return [yes, ← g.expression types]

/-- An expression that starts with `yield`. -/
def yielding : HostParser HostNode :=
  within .other (do
    word "yield"
    let _ ← mark? "*"
    let p ← here
    if p.afterBreak || endsOperand p then return [] else return [← g.expression true])

/-- An expression without a comma. -/
def readExpression (types : Bool) : HostParser HostNode := do
  let p ← here
  let arrow ← if mayBeArrow p then attempt (g.arrowFunction types) else pure none
  match arrow with
  | some n => return n
  | none =>
    if p.atWord "yield" then g.yielding
    else
      let first ← g.operand
      let n ← g.operations (p.rest.length + 1) [] first
      let q ← here
      if ← mark? "?" then
        let parts ← g.outcomes types
        extend n parts
      else if ← mark? "=" then
        let right ← g.expression types
        node .assignmentExpression n.span.start [toPattern n, right.withRole .right]
      else if q.token.kind = .mark && updateMarks.contains q.token.text then
        skip
        let right ← g.expression types
        extend n [right]
      else return n

end AnnotatedJson.HostGrammar
