/-
  The state of reading a host document.

  * `HostCursor` is a place between two tokens, with the token to come already
    read in its usual sense;
  * `HostParser` reads something from there or fails;
  * `HostParser.semicolon` ends a statement, with a semicolon or without one.
-/
import AnnotatedJson.Host.Dialect
import AnnotatedJson.Host.Node
import AnnotatedJson.Host.Token

namespace AnnotatedJson

/-- A place between two tokens. -/
structure HostCursor where
  dialect : Dialect
  /-- The text after the last token, with its offset. -/
  raw : Text
  stop : Nat
  /-- The comments before the next token. -/
  gap : List HostComment
  /-- A line feed stands before the next token. -/
  afterBreak : Bool
  /-- The text from the next token on, with its offset. -/
  rest : Text
  start : Nat
  token : HostToken
  /-- The comments passed so far, last first. -/
  comments : List Span
deriving Repr, Inhabited

namespace HostCursor

/-- The place after some text was read. -/
def settle (dialect : Dialect) (comments : List Span) (stop : Nat) (raw : Text) : HostCursor :=
  let gap := HostGap.read stop raw
  ⟨dialect, raw, stop, gap.comments, gap.afterBreak, gap.rest, gap.offset, HostToken.read gap.rest,
    comments⟩

/-- The place at the start of a text. -/
def ofText (dialect : Dialect) (cs : Text) : HostCursor := settle dialect [] 0 cs

/-- The comments passed once the next token is read. -/
def passed (p : HostCursor) : List Span := (p.gap.map HostComment.span).reverse ++ p.comments

/-- The place after `source`, which starts at the next token. -/
def skip (p : HostCursor) (source : Text) : HostCursor :=
  settle p.dialect p.passed (p.start + Text.bytes source) (p.rest.drop source.length)

/-- The place after the next token. -/
def advance (p : HostCursor) : HostCursor := p.skip p.token.source

/-- The place after `source`, which starts right after the last token. -/
def skipRaw (p : HostCursor) (source : Text) : HostCursor :=
  settle p.dialect p.comments (p.stop + Text.bytes source) (p.raw.drop source.length)

/-- Whether the next token is a mark. -/
def atMark (p : HostCursor) (m : String) : Bool := p.token.kind = .mark && p.token.text == m

/-- Whether the next token is a word. -/
def atWord (p : HostCursor) (w : String) : Bool := p.token.kind = .word && p.token.text == w

/-- Whether the text is at its end. -/
def atEnd (p : HostCursor) : Bool := p.token.kind = .eof

/-- Passes the comments on the line of the last token. -/
def passLine (p : HostCursor) : HostCursor :=
  match (p.gap.takeWhile fun c => !c.afterBreak).getLast? with
  | some last =>
    let near := p.gap.takeWhile fun c => !c.afterBreak
    settle p.dialect ((near.map HostComment.span).reverse ++ p.comments) last.span.stop
      (Text.dropBytes (last.span.stop - p.stop) p.raw)
  | none => p

end HostCursor

/-- Reads something from a place, or fails. -/
abbrev HostParser := StateT HostCursor Option

namespace HostParser

/-- The current place. -/
def here : HostParser HostCursor := get

/-- Fails unless a condition holds. -/
def check (b : Bool) : HostParser Unit := if b then pure () else failure

/-- Tries to read something. -/
def attempt {α : Type} (p : HostParser α) : HostParser (Option α) := fun s =>
  match p s with
  | some (a, s) => some (some a, s)
  | none => some (none, s)

/-- Reads the next token. -/
def skip : HostParser Unit := modify HostCursor.advance

/-- Whether the next token is a mark. -/
def atMark (m : String) : HostParser Bool := do return (← here).atMark m

/-- Whether the next token is a word. -/
def atWord (w : String) : HostParser Bool := do return (← here).atWord w

/-- Reads a mark. -/
def mark (m : String) : HostParser Unit := do
  check (← atMark m)
  skip

/-- Reads a word. -/
def word (w : String) : HostParser Unit := do
  check (← atWord w)
  skip

/-- Reads a mark if it is there; tells whether it was. -/
def mark? (m : String) : HostParser Bool := do
  if ← atMark m then
    skip
    return true
  else return false

/-- Reads a word if it is there; tells whether it was. -/
def word? (w : String) : HostParser Bool := do
  if ← atWord w then
    skip
    return true
  else return false

/-- Reads one of some marks. -/
def oneOfMarks (ms : List String) : HostParser Unit := do
  let p ← here
  check (p.token.kind = .mark && ms.contains p.token.text)
  skip

/-- Whether the next token is one of some words. -/
def atWords (ws : List String) : HostParser Bool := do
  let p ← here
  return p.token.kind = .word && ws.contains p.token.text

/-- Reads a closing angle bracket, which may be the start of a longer mark. -/
def closeAngle : HostParser Unit := do
  let p ← here
  check (p.token.kind = .mark && p.rest.head? = some '>')
  set (p.skip ['>'])

/-- What comes after the next token. -/
def second : HostParser HostCursor := do return (← here).advance

/-! ## Nodes -/

/-- A node from an offset up to the last token. -/
def node (kind : HostKind) (start : Nat) (children : List HostNode) : HostParser HostNode := do
  return .node kind .plain ⟨start, (← here).stop⟩ children

/-- The next token as a node. -/
def leaf (kind : HostKind) : HostParser HostNode := do
  let start := (← here).start
  skip
  node kind start []

/-- Reads something into a node that starts at the next token. -/
def within (kind : HostKind) (p : HostParser (List HostNode)) : HostParser HostNode := do
  let start := (← here).start
  let children ← p
  node kind start children

/-! ## Repetition -/

/-- Repeats a step up to `n` times, as long as it reads something. -/
def repeatUpTo {α : Type} (step : HostParser (Option α)) : Nat → HostParser (List α)
  | 0 => pure []
  | n + 1 => do
    match ← step with
    | some a => return a :: (← repeatUpTo step n)
    | none => return []

/-- Repeats a step as long as it reads something. -/
def many {α : Type} (step : HostParser (Option α)) : HostParser (List α) := do
  repeatUpTo step ((← here).rest.length + 1)

/-- Elements up to a closing mark, which is read too; a comma may stand between
    them and after them, and elements may be left out. -/
def listUntil (close : String) (element : HostParser HostNode) : HostParser (List HostNode) := do
  let found ← many (do
    if ← atMark close then return none
    else if ← mark? "," then return some []
    else
      let n ← element
      if !(← atMark close) then mark ","
      return some [n])
  mark close
  return found.flatten

/-! ## Ends of statements -/

/-- Whether a token in the next line goes on with what is before it, so that no
    semicolon can be left out there. -/
def continues (inExpression : Bool) (t : HostToken) : Bool :=
  match t.kind with
  | .backtick => true
  | .mark =>
    match t.source.head? with
    | some c =>
      if [',', '.', ';', '*', '%', '>', '<', '=', '?', '^', '|', '&', '/', ':'].contains c then true
      else if c = '(' || c = '[' then inExpression
      else if c = '+' then t.text != "++"
      else if c = '-' then t.text != "--"
      else t.text == "!=" || t.text == "!=="
    | none => false
  | .word => t.text == "in" || t.text == "instanceof"
  | _ => false

/-- Ends something with a semicolon that may be left out: at the end, before a
    closing brace, or at the end of a line.  Comments on the line belong to what
    is ended. -/
def semicolon : HostParser Unit := do
  if ← mark? ";" then return
  let p ← here
  check (p.afterBreak || p.atEnd || p.atMark "\x7d")
  set p.passLine

/-- Takes the comments on the line into a block that ends there. -/
def blockEnd (inExpression : Bool) : HostParser Unit := do
  let p ← here
  if p.atEnd || p.atMark "\x7d" || (p.afterBreak && !continues inExpression p.token) then
    set p.passLine

end HostParser

end AnnotatedJson
