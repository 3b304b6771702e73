/-
  Names, patterns, parameters, blocks and classes of host documents.

  * `HostGrammar.propertyName` reads the name of a member;
  * `HostGrammar.readBinding` reads a bound name or pattern;
  * `HostGrammar.parameters` and `signature` read what a function takes;
  * `HostGrammar.block` reads statements in braces;
  * `HostGrammar.classTail` reads a class after its keyword.
-/
import AnnotatedJson.Host.Types

namespace AnnotatedJson.HostGrammar

variable (g : HostGrammar)

open HostParser

/-! ## Names and patterns -/

/-- Whether a property name starts at a token. -/
def startsName (t : HostToken) : Bool :=
  match t.kind with
  | .word | .string | .number | .privateName => true
  | .mark => t.text == "["
  | _ => false

/-- The name of a member: a word, a literal, or an expression in brackets. -/
def propertyName : HostParser HostNode := do
  match (← here).token.kind with
  | .word | .number | .privateName => leaf .other
  | .string => leaf .string
  | .mark =>
    within .other (do
      mark "["
      let n ← g.expression true
      mark "]"
      return [n])
  | _ => failure

/-- A pattern with the default that may follow it. -/
def withDefault (p : HostParser HostNode) : HostParser HostNode := do
  let start := (← here).start
  let n ← p
  if ← mark? "=" then
    let value ← g.expression true
    node .other start [n, value]
  else return n

/-- What is bound to all that is left. -/
def restPattern : HostParser HostNode :=
  within .other (do
    mark "..."
    let n ← g.binding
    return [n])

/-- A part of an object pattern. -/
def propertyPattern : HostParser HostNode := do
  if ← atMark "..." then g.restPattern
  else
    let start := (← here).start
    let name ← g.propertyName
    if ← mark? ":" then
      let value ← g.withDefault g.binding
      node .other start [name, value]
    else if ← mark? "=" then
      let value ← g.expression true
      node .other start [name, value]
    else return name

/-- The name or the pattern that is bound by a declaration. -/
def readBinding : HostParser HostNode := do
  let p ← here
  if p.token.kind = .word then leaf .identifier
  else if p.atMark "\x7b" then
    within .other (do
      mark "\x7b"
      listUntil "\x7d" g.propertyPattern)
  else
    within .other (do
      mark "["
      listUntil "]" (do
        if ← atMark "..." then g.restPattern else g.withDefault g.binding))

/-! ## Parameters -/

/-- A decorator. -/
def decorator : HostParser HostNode :=
  within .other (do
    mark "@"
    let n ← g.access
    return [n])

/-- All decorators that stand here. -/
def decorators : HostParser (List HostNode) :=
  many (do
    if ← atMark "@" then return some (← g.decorator) else return none)

/-- The modifiers that are nodes of their own. -/
def visibleModifiers : List String := ["public", "private", "protected", "override"]

/-- A modifier before something that `follows` accepts. -/
def modifier? (names : List String) (follows : HostToken → Bool) :
    HostParser (Option (List HostNode)) := do
  let p ← here
  if p.token.kind = .word && names.contains p.token.text && follows p.advance.token then
    if visibleModifiers.contains p.token.text then return some [← leaf .other]
    else
      skip
      return some []
  else return none

/-- Whether a pattern starts at a token. -/
def startsBinding (t : HostToken) : Bool :=
  t.kind = .word || (t.kind = .mark && (t.text == "\x7b" || t.text == "["))

/-- A parameter: decorators, modifiers, pattern, type and default. -/
def parameter : HostParser HostNode :=
  within .other (do
    let ds ← g.decorators
    let ms ← many (modifier? (visibleModifiers ++ ["readonly"]) startsBinding)
    let name ← if ← atMark "..." then g.restPattern else g.binding
    let _ ← mark? "?"
    let type ← g.typeAnnotation?
    let value ← if ← mark? "=" then pure [← g.expression true] else pure []
    return ds ++ ms.flatten ++ [name] ++ type ++ value)

/-- Parameters in brackets. -/
def parameters : HostParser HostNode :=
  within .other (do
    mark "("
    listUntil ")" g.parameter)

/-- Type parameters, parameters and the type of the result. -/
def signature : HostParser (List HostNode) := do
  let types ← g.typeParameters?
  let ps ← g.parameters
  let result ← g.typeAnnotation?
  return types ++ [ps] ++ result

/-! ## Blocks -/

/-- Statements up to a closing brace, which is read too. -/
def statementsUntilBrace : HostParser (List HostNode) := do
  let found ← many (do
    let p ← here
    if p.atMark "\x7d" || p.atEnd then return none else return some (← g.statement))
  mark "\x7d"
  return found

/-- Statements in braces.  `inExpression` tells whether an expression can go on
    after the block. -/
def block (inExpression : Bool) : HostParser HostNode :=
  within .other (do
    mark "\x7b"
    let found ← g.statementsUntilBrace
    blockEnd inExpression
    return found)

/-! ## Classes -/

/-- The words that may stand before the name of a member. -/
def memberModifiers : List String :=
  visibleModifiers ++ ["static", "readonly", "abstract", "declare", "accessor", "async", "get", "set"]

/-- Whether a name, an asterisk or a block follows a modifier. -/
def followsModifier (t : HostToken) : Bool :=
  startsName t || (t.kind = .mark && t.text == "*")

/-- A block of statements that run once for a class. -/
def staticBlock : HostParser HostNode :=
  within .other (do
    word "static"
    let b ← g.block false
    return [b])

/-- The type of all members that are not named. -/
def indexSignature : HostParser (List HostNode) := do
  mark "["
  check ((← here).token.kind = .word)
  skip
  mark ":"
  g.type
  mark "]"
  g.typeAnnotation?

/-- The end of a member: a semicolon, which may be left out, or a comma. -/
def memberEnd : HostParser Unit := do
  if ← mark? "," then return else semicolon

/-- A member of a class.  Decorators are part of a field, but stand beside a
    method. -/
def classMember : HostParser (List HostNode) := do
  let start := (← here).start
  let ds ← g.decorators
  let own := (← here).start
  if (← atWord "static") && (← second).atMark "\x7b" then return ds ++ [← g.staticBlock]
  let ms ← many (modifier? memberModifiers followsModifier)
  match ← attempt g.indexSignature with
  | some parts =>
    let n ← node .other own (ms.flatten ++ parts)
    memberEnd
    return ds ++ [n]
  | none =>
    let _ ← mark? "*"
    let name ← g.propertyName
    if !(← mark? "?") then let _ ← mark? "!"
    if (← atMark "(") || (← atMark "<") then
      let parts ← g.signature
      if ← atMark "\x7b" then
        let body ← g.block false
        let n ← node .other own (ms.flatten ++ [name] ++ parts ++ [body])
        let _ ← mark? ";"
        return ds ++ [n]
      else
        let n ← node .other own (ms.flatten ++ [name] ++ parts)
        memberEnd
        return ds ++ [n]
    else
      let type ← g.typeAnnotation?
      let value ← if ← mark? "=" then pure [(← g.expression true).withRole .value] else pure []
      let n ← node .other start (ds ++ ms.flatten ++ [name] ++ type ++ value)
      memberEnd
      return [n]

/-- The members of a class in braces. -/
def classBody : HostParser HostNode :=
  within .other (do
    mark "\x7b"
    let found ← many (do
      let p ← here
      if p.atMark "\x7d" || p.atEnd then return none
      else if ← mark? ";" then return some []
      else return some (← g.classMember))
    mark "\x7d"
    return found.flatten)

/-- Types with commas between them. -/
def typeList : HostParser (List HostNode) := do
  let first ← g.typeNode
  let rest ← many (do
    if ← mark? "," then return some (← g.typeNode) else return none)
  return first :: rest

/-- What a class is derived from. -/
def heritage : HostParser (List HostNode) := do
  if (← atWord "extends") || (← atWord "implements") then
    let h ← within .other (do
      let parent ← if ← atWord "extends" then
          pure [← within .other (do
            skip
            let n ← g.access
            let types ← g.typeArguments?
            return n.withRole .value :: types)]
        else pure []
      let interfaces ← if ← atWord "implements" then
          pure [← within .other (do
            skip
            g.typeList)]
        else pure []
      return parent ++ interfaces)
    return [h]
  else return []

/-- A class after its keyword: name, type parameters, what it is derived from, and
    members. -/
def classTail : HostParser (List HostNode) := do
  let p ← here
  let name ←
    if p.token.kind = .word && p.token.text != "extends" && p.token.text != "implements" then
      pure [← leaf .other]
    else pure []
  let types ← g.typeParameters?
  let parents ← g.heritage
  let body ← g.classBody
  return name ++ types ++ parents ++ [body]

end AnnotatedJson.HostGrammar
