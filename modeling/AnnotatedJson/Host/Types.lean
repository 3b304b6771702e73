/-
  Types in host documents.

  No object literal stands in a type, so a type is read over: one node stands for
  all of it.

  * `HostGrammar.readType` reads a type;
  * `HostGrammar.typeAnnotation`, `typeArguments` and `typeParameters` read the
    places where types stand.
-/
import AnnotatedJson.Host.Grammar

namespace AnnotatedJson

/-! ## Passing over brackets and templates -/

/-- Where in a template a character stands. -/
inductive TemplateState where
  | text
  | code (depth : Nat)
  | quoted (mark : Char)
deriving DecidableEq, Repr, Inhabited

/-- The rest of a template up to its closing backtick; the states are those of the
    templates and substitutions around the place, innermost first. -/
def templateRest : List TemplateState → Text → Text
  | [], _ => []
  | _, [] => []
  | state :: outer, c :: cs =>
    match state with
    | .text =>
      if c = '\\' then
        match cs with
        | d :: ds => c :: d :: templateRest (.text :: outer) ds
        | [] => [c]
      else if c = '`' then c :: templateRest outer cs
      else if c = '$' then
        match cs with
        | '{' :: ds => c :: '{' :: templateRest (.code 0 :: .text :: outer) ds
        | ds => c :: templateRest (.text :: outer) ds
      else c :: templateRest (.text :: outer) cs
    | .code depth =>
      if c = '{' then c :: templateRest (.code (depth + 1) :: outer) cs
      else if c = '}' then
        c :: templateRest (if depth = 0 then outer else .code (depth - 1) :: outer) cs
      else if c = '`' then c :: templateRest (.text :: .code depth :: outer) cs
      else if c = '"' ∨ c = '\'' then c :: templateRest (.quoted c :: .code depth :: outer) cs
      else c :: templateRest (.code depth :: outer) cs
    | .quoted mark =>
      if c = mark then c :: templateRest outer cs
      else c :: templateRest (.quoted mark :: outer) cs

namespace HostGrammar

open HostParser

/-- Passes over a template. -/
def skipTemplate : HostParser Unit := do
  let p ← here
  check (p.token.kind = .backtick)
  set (p.skip ('`' :: templateRest [.text] (p.rest.drop 1)))

/-- Passes over tokens until `depth` brackets are closed. -/
def skipUntilClosed : Nat → Nat → HostParser Unit
  | 0, _ => failure
  | fuel + 1, depth => do
    let p ← here
    check (!p.atEnd)
    if p.token.kind = .backtick then
      skipTemplate
      skipUntilClosed fuel depth
    else if p.atMark "(" || p.atMark "[" || p.atMark "\x7b" then
      skip
      skipUntilClosed fuel (depth + 1)
    else if p.atMark ")" || p.atMark "]" || p.atMark "\x7d" then
      skip
      if depth ≤ 1 then pure () else skipUntilClosed fuel (depth - 1)
    else
      skip
      skipUntilClosed fuel depth

/-- Passes over a bracket and all up to its counterpart. -/
def skipBrackets : HostParser Unit := do
  oneOfMarks ["(", "[", "\x7b"]
  skipUntilClosed ((← here).rest.length + 1) 1

variable (g : HostGrammar)

/-! ## Arguments and parameters -/

/-- Types in angle brackets. -/
def typeArguments : HostParser HostNode :=
  within .other (do
    mark "<"
    let _ ← many (do
      if (← here).rest.head? = some '>' then return none
      else if ← mark? "," then return some ()
      else
        g.type
        return some ())
    closeAngle
    return [])

/-- A type parameter with its bound and its default. -/
def typeParameter : HostParser Unit := do
  let _ ← many (do
    let p ← here
    let next := p.advance
    if p.token.kind = .word && ["const", "in", "out"].contains p.token.text &&
        next.token.kind = .word && next.token.text != "extends" then
      skip
      return some ()
    else return none)
  check ((← here).token.kind = .word)
  skip
  if ← word? "extends" then g.type
  if ← mark? "=" then g.type

/-- Type parameters in angle brackets. -/
def typeParameters : HostParser HostNode :=
  within .other (do
    mark "<"
    let _ ← many (do
      if (← here).rest.head? = some '>' then return none
      else if ← mark? "," then return some ()
      else
        g.typeParameter
        return some ())
    closeAngle
    return [])

/-- Type arguments, if they stand here. -/
def typeArguments? : HostParser (List HostNode) := do
  if ← atMark "<" then return [← g.typeArguments] else return []

/-- Type parameters, if they stand here. -/
def typeParameters? : HostParser (List HostNode) := do
  if ← atMark "<" then return [← g.typeParameters] else return []

/-! ## Types -/

/-- The rest of a dotted name. -/
def dottedRest : HostParser Unit := do
  let _ ← many (do
    if ← mark? "." then
      skip
      return some ()
    else return none)

/-- The type of a function, from its parameters on. -/
def functionType : HostParser Unit := do
  let _ ← g.typeParameters?
  check (← atMark "(")
  skipBrackets
  mark "=>"
  g.type

/-- A type that starts with a word. -/
def wordType : HostParser Unit := do
  let p ← here
  let next := p.advance
  match p.token.text with
  | "new" =>
    skip
    g.functionType
  | "abstract" =>
    skip
    if (← atWord "new") then
      skip
      g.functionType
  | "typeof" =>
    skip
    if ← word? "import" then skipBrackets else skip
    dottedRest
    if (← atMark "<") && !(← here).afterBreak then let _ ← g.typeArguments
  | "import" =>
    skip
    skipBrackets
    dottedRest
    let _ ← g.typeArguments?
  | "asserts" =>
    skip
    if next.token.kind = .word && !next.afterBreak then
      skip
      if ← word? "is" then g.type
  | _ =>
    skip
    dottedRest
    if (← atMark "<") && !(← here).afterBreak then let _ ← g.typeArguments
    if (← atWord "is") && !(← here).afterBreak then
      skip
      g.type

/-- A type without operators. -/
def primaryType : HostParser Unit := do
  let p ← here
  match p.token.kind with
  | .word => g.wordType
  | .backtick => skipTemplate
  | .string | .number => skip
  | .mark =>
    match p.token.text with
    | "(" =>
      skipBrackets
      if ← mark? "=>" then g.type
    | "[" | "\x7b" => skipBrackets
    | "<" => g.functionType
    | "-" =>
      skip
      skip
    | _ => failure
  | _ => failure

/-- A name that stands for a part of a type, with what it has to extend. -/
def inferredType : HostParser Unit := do
  skip
  skip
  if ← word? "extends" then g.type

/-- A type with the operators before and after it. -/
def unaryType : HostParser Unit := do
  let _ ← many (do
    let p ← here
    let next := p.advance
    if p.token.kind = .word && ["keyof", "unique", "readonly"].contains p.token.text &&
        (next.token.kind != .mark || ["(", "[", "\x7b", "<", "-"].contains next.token.text) then
      skip
      return some ()
    else return none)
  let p ← here
  if p.atWord "infer" && p.advance.token.kind = .word && !p.advance.afterBreak then g.inferredType
  else g.primaryType
  let _ ← many (do
    let p ← here
    if p.atMark "[" && !p.afterBreak then
      skipBrackets
      return some ()
    else return none)

/-- Types joined by bars and ampersands. -/
def unionType : HostParser Unit := do
  let _ ← mark? "|"
  let _ ← mark? "&"
  g.unaryType
  let _ ← many (do
    if (← atMark "|") || (← atMark "&") then
      skip
      g.unaryType
      return some ()
    else return none)

/-- A type. -/
def readType : HostParser Unit := do
  g.unionType
  if (← atWord "extends") && !(← here).afterBreak then
    let conditional : HostParser Unit := do
      skip
      g.unionType
      mark "?"
      g.type
      mark ":"
      g.type
    let _ ← attempt conditional

/-- A type after a colon. -/
def typeAnnotation : HostParser HostNode :=
  within .other (do
    mark ":"
    g.type
    return [])

/-- A type after a colon, if there is one. -/
def typeAnnotation? : HostParser (List HostNode) := do
  if ← atMark ":" then return [← g.typeAnnotation] else return []

/-- A type as a node. -/
def typeNode : HostParser HostNode :=
  within .other (do
    g.type
    return [])

end HostGrammar

end AnnotatedJson
