/-
  Elements in angle brackets, with attributes and content.

  * `HostGrammar.readElement` reads an element or a fragment.
-/
import AnnotatedJson.Host.Types

namespace AnnotatedJson.HostGrammar

variable (g : HostGrammar)

open HostParser

/-- The name of an element or an attribute: words joined by hyphens, points and
    colons. -/
def elementName : HostParser HostNode :=
  within .other (do
    check ((← here).token.kind = .word)
    skip
    let _ ← many (do
      let p ← here
      if p.token.kind = .mark && ["-", ".", ":", "--"].contains p.token.text then
        skip
        if (← here).token.kind = .word then skip
        return some ()
      else return none)
    return [])

/-- An expression, a spread or nothing in braces. -/
def embedded : HostParser HostNode :=
  within .other (do
    mark "\x7b"
    if ← mark? "\x7d" then return []
    else if ← atMark "..." then
      let n ← within .spread (do
        skip
        let n ← g.expression true
        return [n])
      mark "\x7d"
      return [n]
    else
      let n ← g.expressions
      mark "\x7d"
      return [n])

/-- The text in quotes that is the value of an attribute. -/
def quotedValue : HostParser HostNode := do
  let p ← here
  match p.rest with
  | q :: cs =>
    let source := q :: (cs.takeWhile (· ≠ q) ++ [q])
    set (p.skip source)
    node .string p.start []
  | [] => failure

/-- The value of an attribute. -/
def attributeValue : HostParser HostNode := do
  let p ← here
  if p.token.kind = .string then quotedValue
  else if p.atMark "\x7b" then g.embedded
  else g.element

/-- An attribute, or attributes spread from an object. -/
def tagAttribute : HostParser HostNode := do
  if ← atMark "\x7b" then g.embedded
  else
    within .other (do
      let name ← elementName
      let value ← if ← mark? "=" then pure [← g.attributeValue] else pure []
      return name :: value)

/-- All attributes up to the end of a tag. -/
def tagAttributes : HostParser (List HostNode) :=
  many (do
    let p ← here
    if p.token.kind = .word || p.atMark "\x7b" then return some (← g.tagAttribute) else return none)

/-- Text between tags, up to a brace or an angle bracket. -/
def elementText : HostParser (List HostNode) := do
  let p ← here
  let source := p.raw.takeWhile fun c => c ≠ '{' ∧ c ≠ '<'
  set (p.skipRaw source)
  if source.all HostToken.isGapChar then return []
  else return [.node .other .plain ⟨p.stop, p.stop + Text.bytes source⟩ []]

/-- What stands between an opening tag and its closing tag: text, expressions and
    elements. -/
def elementContent : HostParser (List HostNode) := do
  let first ← elementText
  let rest ← many (do
    let p ← here
    if p.atMark "\x7b" then
      let n ← g.embedded
      return some (n :: (← elementText))
    else if p.atMark "<" && !(← second).atMark "/" then
      let n ← g.element
      return some (n :: (← elementText))
    else return none)
  return first ++ rest.flatten

/-- The name in a tag; a fragment has none. -/
def tagName : HostParser (List HostNode) := do
  if (← here).token.kind = .word then return [← elementName] else return []

/-- A closing tag. -/
def closingTag : HostParser HostNode :=
  within .other (do
    mark "<"
    mark "/"
    let name ← tagName
    closeAngle
    return name)

/-- An element with its content, or one that is closed at once. -/
def readElement : HostParser HostNode := do
  let start := (← here).start
  mark "<"
  let name ← tagName
  let types ← g.typeArguments?
  let attributes ← g.tagAttributes
  let parts := name ++ types ++ attributes
  if ← mark? "/" then
    closeAngle
    node .other start parts
  else
    closeAngle
    let opening ← node .other start parts
    let content ← g.elementContent
    let closing ← closingTag
    node .other start (opening :: content ++ [closing])

end AnnotatedJson.HostGrammar
