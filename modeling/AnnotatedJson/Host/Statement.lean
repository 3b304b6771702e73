/-
  Statements and declarations of host documents.

  * `HostGrammar.readStatement` reads one of them.
-/
import AnnotatedJson.Host.Expression

namespace AnnotatedJson.HostGrammar

variable (g : HostGrammar)

open HostParser

/-! ## Variables -/

/-- A declared variable with its type and its value. -/
def declarator : HostParser HostNode :=
  within .variableDeclarator (do
    let name ← g.binding
    let _ ← mark? "!"
    let type ← g.typeAnnotation?
    let value ← if ← mark? "=" then pure [(← g.expression true).withRole .value] else pure []
    return [name] ++ type ++ value)

/-- Declared variables with commas between them. -/
def declarators : HostParser (List HostNode) := do
  let first ← g.declarator
  let rest ← many (do
    if ← mark? "," then return some (← g.declarator) else return none)
  return first :: rest

/-- The kind of declaration that a word starts. -/
def declarationKind (w : String) : HostKind :=
  if w == "var" then .variableDeclaration else .lexicalDeclaration

/-- A declaration of variables. -/
def variableDeclaration : HostParser HostNode := do
  let p ← here
  within (declarationKind p.token.text) (do
    skip
    let found ← g.declarators
    semicolon
    return found)

/-! ## Modules -/

/-- Names in braces, which may be renamed. -/
def specifiers : HostParser HostNode :=
  within .other (do
    mark "\x7b"
    listUntil "\x7d" (within .other (do
      let parts ← many (do
        let p ← here
        if p.token.kind = .word || p.token.kind = .string then return some (← leaf .other)
        else return none)
      check (!parts.isEmpty)
      return parts)))

/-- Attributes of an import. -/
def importAttributes : HostParser (List HostNode) := do
  let p ← here
  if (p.atWord "with" || (p.atWord "assert" && !p.afterBreak)) && p.advance.atMark "\x7b" then
    return [← within .other (do
      skip
      let n ← g.objectLiteral
      return [n])]
  else return []

/-- Where names come from. -/
def source : HostParser (List HostNode) := do
  check ((← here).token.kind = .string)
  let n ← leaf .string
  return n :: (← g.importAttributes)

/-- All names of a module under one name. -/
def namespaceName : HostParser HostNode :=
  within .other (do
    mark "*"
    word "as"
    let n ← leaf .other
    return [n])

/-- The names that an import binds. -/
def importClause : HostParser HostNode :=
  within .other (do
    let one : HostParser HostNode := do
      let p ← here
      if p.atMark "\x7b" then specifiers
      else if p.atMark "*" then namespaceName
      else
        check (p.token.kind = .word)
        leaf .identifier
    let first ← one
    let rest ← if ← mark? "," then pure [← one] else pure []
    return first :: rest)

/-- An import that gives another name to something. -/
def importAlias : HostParser (List HostNode) := do
  check ((← here).token.kind = .word)
  let name ← leaf .identifier
  mark "="
  let target ← g.access
  return [name, target]

/-- An import. -/
def importStatement : HostParser HostNode :=
  within .other (do
    word "import"
    let p ← here
    if p.token.kind = .string then
      let from_ ← g.source
      semicolon
      return from_
    else
      let next := p.advance
      if (p.atWord "type" || p.atWord "typeof") && !next.atWord "from" && !next.atMark "," &&
          !next.atMark "=" then skip
      match ← attempt g.importAlias with
      | some parts =>
        semicolon
        return parts
      | none =>
        let clause ← importClause
        word "from"
        let from_ ← g.source
        semicolon
        return clause :: from_)

/-- The names of an export: a list in braces or everything, and where they come
    from. -/
def exportedNames : HostParser (List HostNode) := do
  let names ←
    if ← atMark "\x7b" then pure [← specifiers]
    else if (← second).atWord "as" then pure [← namespaceName]
    else do
      mark "*"
      pure []
  let from_ ← if ← word? "from" then g.source else pure []
  semicolon
  return names ++ from_

/-- Whether a declaration that is exported by default has a name. -/
def isNamedDeclaration (p : HostCursor) : Bool :=
  let named (q : HostCursor) : Bool :=
    q.token.kind = .word && q.token.text != "extends" && q.token.text != "implements"
  if p.atWord "async" then
    let f := p.advance.advance
    p.advance.atWord "function" && (named f || (f.atMark "*" && named f.advance))
  else if p.atWord "function" then
    let f := p.advance
    named f || (f.atMark "*" && named f.advance)
  else if p.atWord "class" then named p.advance
  else if p.atWord "abstract" then p.advance.atWord "class"
  else p.atWord "interface" && named p.advance

/-- What is exported by default. -/
def exportedDefault : HostParser (List HostNode) := do
  let p ← here
  if p.atMark "@" || isNamedDeclaration p then return [(← g.statement).withRole .declaration]
  else
    let n ← g.expression true
    semicolon
    return [n.withRole .value]

/-- An export, after its decorators. -/
def exportTail : HostParser (List HostNode) := do
  word "export"
  let p ← here
  let next := p.advance
  if p.atMark "\x7b" || p.atMark "*" then g.exportedNames
  else if p.atWord "type" && (next.atMark "\x7b" || next.atMark "*") then
    skip
    g.exportedNames
  else if ← mark? "=" then
    let n ← g.expressions
    semicolon
    return [n]
  else if p.atWord "as" && next.atWord "namespace" then
    skip
    skip
    let n ← leaf .identifier
    semicolon
    return [n]
  else if ← word? "default" then g.exportedDefault
  else return [(← g.statement).withRole .declaration]

/-! ## Types and namespaces -/

/-- A named type. -/
def typeAlias : HostParser HostNode :=
  within .other (do
    word "type"
    let name ← leaf .other
    let types ← g.typeParameters?
    mark "="
    let type ← g.typeNode
    semicolon
    return [name] ++ types ++ [type])

/-- An interface. -/
def interfaceDeclaration : HostParser HostNode :=
  within .other (do
    word "interface"
    let name ← leaf .other
    let types ← g.typeParameters?
    let parents ← if ← atWord "extends" then
        pure [← within .other (do
          skip
          g.typeList)]
      else pure []
    let body ← within .other (do
      check (← atMark "\x7b")
      skipBrackets
      return [])
    return [name] ++ types ++ parents ++ [body])

/-- An enumeration. -/
def enumDeclaration : HostParser HostNode :=
  within .other (do
    let _ ← word? "const"
    word "enum"
    let name ← leaf .identifier
    let body ← within .other (do
      mark "\x7b"
      listUntil "\x7d" (do
        let start := (← here).start
        let name ← g.propertyName
        if ← mark? "=" then
          let value ← g.expression true
          node .other start [name, value]
        else return name))
    return [name, body])

/-- A namespace or a module, from its keyword on. -/
def namespaceTail : HostParser HostNode :=
  within .other (do
    skip
    let name ← within .other (do
      skip
      dottedRest
      return [])
    let body ← if ← atMark "\x7b" then pure [← g.block false] else pure []
    return name :: body)

/-- A declaration of something that is defined elsewhere. -/
def ambient : HostParser HostNode :=
  within .other (do
    word "declare"
    if (← atWord "global") && (← second).atMark "\x7b" then
      skip
      return [← g.block false]
    else if ((← atWord "namespace") || (← atWord "module")) && !(← second).atMark "." then
      let n ← g.namespaceTail
      let _ ← attempt semicolon
      return [n]
    else return [← g.statement])

/-! ## Functions and classes -/

/-- A function, or the signature of one. -/
def functionDeclaration : HostParser HostNode :=
  within .other (do
    let _ ← word? "async"
    word "function"
    let _ ← mark? "*"
    let name ← leaf .identifier
    let parts ← g.signature
    if ← atMark "\x7b" then
      let body ← g.block false
      return [name] ++ parts ++ [body]
    else
      semicolon
      return [name] ++ parts)

/-- A class, after its decorators. -/
def classDeclaration : HostParser (List HostNode) := do
  let _ ← word? "abstract"
  word "class"
  let tail ← g.classTail
  blockEnd false
  return tail

/-- A class or an export with decorators in front. -/
def decorated : HostParser HostNode := do
  let start := (← here).start
  let ds ← g.decorators
  if ← atWord "export" then
    let parts ← g.exportTail
    node .exportStatement start (ds ++ parts)
  else
    let parts ← g.classDeclaration
    node .other start (ds ++ parts)

/-! ## Control -/

/-- A statement that is run under a condition, or in place of another. -/
def conditional : HostParser (List HostNode) := do
  word "if"
  let condition ← g.parenthesized
  let body ← g.statement
  if ← atWord "else" then
    let alternative ← within .other (do
      skip
      return [← g.statement])
    return [condition, body, alternative]
  else return [condition, body]

/-- The head of a loop over the values or the keys of something. -/
def loopOver : HostParser (List HostNode) := do
  let p ← here
  let left ←
    if ["var", "let", "const"].contains p.token.text && p.token.kind = .word then do
      skip
      g.binding
    else do
      let n ← g.access
      pure (toPattern n)
  check ((← atWord "of") || (← atWord "in"))
  skip
  let right ← g.expressions
  return [left, right]

/-- The start of a loop with a counter, up to the first semicolon. -/
def loopStart : HostParser (List HostNode) := do
  let p ← here
  if ← mark? ";" then return []
  else if p.token.kind = .word && ["var", "let", "const"].contains p.token.text then
    let n ← within (declarationKind p.token.text) (do
      skip
      let found ← g.declarators
      mark ";"
      return found)
    return [n]
  else
    let n ← g.expressions
    mark ";"
    return [n]

/-- The head of a loop with a counter. -/
def loopCounter : HostParser (List HostNode) := do
  let first ← g.loopStart
  let condition ← if ← mark? ";" then pure [] else do
    let n ← g.expressions
    mark ";"
    pure [n]
  let update ← if ← atMark ")" then pure [] else pure [← g.expressions]
  return first ++ condition ++ update

/-- A loop with a head in brackets. -/
def forLoop : HostParser (List HostNode) := do
  word "for"
  let _ ← word? "await"
  mark "("
  let head ← match ← attempt (do
      let parts ← g.loopOver
      check (← atMark ")")
      return parts) with
    | some parts => pure parts
    | none => g.loopCounter
  mark ")"
  return head ++ [← g.statement]

/-- A loop that tests its condition last. -/
def doLoop : HostParser (List HostNode) := do
  word "do"
  let body ← g.statement
  word "while"
  let condition ← g.parenthesized
  if !(← mark? ";") then blockEnd false
  return [body, condition]

/-- The statements of a case, up to the next one. -/
def caseBody : HostParser (List HostNode) :=
  many (do
    let p ← here
    if p.atEnd || p.atMark "\x7d" || p.atWord "case" ||
        (p.atWord "default" && p.advance.atMark ":") then return none
    else return some (← g.statement))

/-- A case of a switch. -/
def switchCase : HostParser HostNode :=
  within .other (do
    if ← word? "default" then
      mark ":"
      g.caseBody
    else
      word "case"
      let n ← g.expressions
      mark ":"
      return n :: (← g.caseBody))

/-- A choice between cases. -/
def switch : HostParser (List HostNode) := do
  word "switch"
  let value ← g.parenthesized
  let body ← within .other (do
    mark "\x7b"
    let cases ← many (do
      if ← atMark "\x7d" then return none else return some (← g.switchCase))
    mark "\x7d"
    return cases)
  return [value, body]

/-- A block whose failures are caught. -/
def guarded : HostParser (List HostNode) := do
  word "try"
  let body ← g.block false
  let handler ← if ← atWord "catch" then
      pure [← within .other (do
        skip
        let bound ← if ← mark? "(" then do
            let n ← g.binding
            let type ← g.typeAnnotation?
            mark ")"
            pure (n :: type)
          else pure []
        return bound ++ [← g.block false])]
    else pure []
  let last ← if ← atWord "finally" then
      pure [← within .other (do
        skip
        return [← g.block false])]
    else pure []
  return [body] ++ handler ++ last

/-- A statement of a keyword with an expression that may be left out. -/
def withValue : HostParser (List HostNode) := do
  skip
  let p ← here
  let value ←
    if p.afterBreak || p.atEnd || p.atMark ";" || p.atMark "\x7d" then pure []
    else pure [← g.expressions]
  semicolon
  return value

/-- A jump, which may name a label. -/
def jump : HostParser (List HostNode) := do
  skip
  let p ← here
  let label ← if p.token.kind = .word && !p.afterBreak then pure [← leaf .other] else pure []
  semicolon
  return label

/-- A statement with a label. -/
def labeled : HostParser (List HostNode) := do
  let label ← leaf .other
  mark ":"
  return [label, ← g.statement]

/-- An expression as a statement. -/
def expressionStatement : HostParser HostNode :=
  within .expressionStatement (do
    let n ← g.expressions
    semicolon
    return [n])

/-! ## Statements -/

/-- Whether a name follows on the same line. -/
def namedNext (p : HostCursor) : Bool :=
  let next := p.advance
  next.token.kind = .word && !next.afterBreak

/-- Whether a declaration starts at a word that may also be a name. -/
def startsContextual (p : HostCursor) : Bool :=
  let next := p.advance
  match p.token.text with
  | "type" => namedNext p && (next.advance.atMark "=" || next.advance.atMark "<")
  | "interface" | "declare" | "enum" => namedNext p
  | "abstract" => next.atWord "class"
  | "async" => next.atWord "function" && !next.afterBreak
  | "namespace" | "module" =>
    !next.afterBreak && (next.token.kind = .word || next.token.kind = .string)
  | "let" => startsBinding next.token
  | _ => true

/-- A statement that starts with a word. -/
def wordStatement (p : HostCursor) : HostParser HostNode :=
  let next := p.advance
  let word := p.token.text
  if next.atMark ":" && !reservedWords.contains word then within .other g.labeled
  else if !startsContextual p then g.expressionStatement
  else
    match word with
    | "const" => if next.atWord "enum" then g.enumDeclaration else g.variableDeclaration
    | "var" | "let" => g.variableDeclaration
    | "function" | "async" => g.functionDeclaration
    | "class" | "abstract" => within .other g.classDeclaration
    | "interface" => g.interfaceDeclaration
    | "type" => g.typeAlias
    | "enum" => g.enumDeclaration
    | "declare" => g.ambient
    | "module" => g.namespaceTail
    | "namespace" =>
      within .expressionStatement (do
        let n ← g.namespaceTail
        let _ ← attempt semicolon
        return [n])
    | "import" =>
      if next.atMark "(" || next.atMark "." then g.expressionStatement else g.importStatement
    | "export" => within .exportStatement g.exportTail
    | "if" => within .other g.conditional
    | "for" => within .other g.forLoop
    | "while" | "with" =>
      within .other (do
        skip
        let condition ← g.parenthesized
        return [condition, ← g.statement])
    | "do" => within .other g.doLoop
    | "switch" => within .other g.switch
    | "try" => within .other g.guarded
    | "return" | "throw" => within .other g.withValue
    | "break" | "continue" => within .other jump
    | "debugger" =>
      within .other (do
        skip
        semicolon
        return [])
    | _ => g.expressionStatement

/-- A statement or a declaration. -/
def readStatement : HostParser HostNode := do
  let p ← here
  if p.token.kind = .word then g.wordStatement p
  else if p.atMark "\x7b" then g.block false
  else if p.atMark ";" then leaf .other
  else if p.atMark "@" then g.decorated
  else g.expressionStatement

end AnnotatedJson.HostGrammar
