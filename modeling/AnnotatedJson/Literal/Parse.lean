/-
  Parsing that always succeeds.

  Problems are recorded and parsing goes on at the next separator.  Shorthand
  of object literals is read as far as it goes: a bare or single-quoted key
  becomes a key, and a value that is no JSON value leaves a hole.

  * `Cursor` is the state: the current token, those to come, and what was
    recorded; `Cursor.advance` moves on, past comments;
  * `value`, `items`, `members` and `property` read the parts of a literal;
  * `Literal.parse` reads a text.

  A problem at the offset of the problem recorded last is dropped, so that one
  place is blamed once.
-/
import AnnotatedJson.Literal.Scan
import AnnotatedJson.Literal.Node

namespace AnnotatedJson

/-- What parsing depends on besides the tokens. -/
structure ParseContext where
  allowComments : Bool
  /-- Where a problem at the end of the input is shown. -/
  endMark : Span
deriving Repr

/-- The state of the parser. -/
structure Cursor where
  current : Token
  rest : List Token
  /-- A line feed stands between the token before `current` and `current`. -/
  afterBreak : Bool
  /-- The number of the next node. -/
  nextId : Nat
  errors : List SyntaxError
  comments : List Span
  lastProblem : Option Nat
  /-- How many tokens have been drawn. -/
  drawn : Nat
deriving Repr, Inhabited

namespace Cursor

variable (ctx : ParseContext)

/-- The kind of the current token. -/
def kind (p : Cursor) : TokenKind := p.current.kind

/-- The offset of the current token. -/
def start (p : Cursor) : Nat := p.current.span.start

/-- The offset just past the current token. -/
def stop (p : Cursor) : Nat := p.current.span.stop

/-! ## Problems -/

/-- Records a problem, unless the last one was at the same offset. -/
def report (p : Cursor) (problem : Problem) (span : Span) : Cursor :=
  if p.lastProblem = some span.start then p
  else { p with errors := p.errors ++ [⟨problem, span⟩], lastProblem := some span.start }

/-- Records a problem at the current token.  The end of input has no extent of
    its own and is shown at the end mark. -/
def blame (p : Cursor) (problem : Problem) : Cursor :=
  let span := p.current.span
  p.report problem (if span.start = span.stop ∧ 0 < span.start then ctx.endMark else span)

/-! ## Moving on -/

/-- Records what is wrong inside a token. -/
def noteFault (p : Cursor) (t : Token) : Cursor :=
  match t.fault with
  | some fault => p.report (.fault fault) t.span
  | none => p

/-- Records a comment, and a problem if comments are not allowed. -/
def noteComment (p : Cursor) (t : Token) : Cursor :=
  let p := if ctx.allowComments then p else p.report .comment t.span
  { p with comments := p.comments ++ [t.span] }

/-- Draws tokens up to the first that is no comment. -/
def draw (p : Cursor) (broken : Bool) : List Token → Cursor
  | [] => { p with rest := [], drawn := p.drawn + 1 }
  | t :: ts =>
    let p := noteFault { p with drawn := p.drawn + 1 } t
    if t.kind.isComment then
      draw (noteComment ctx p t) (broken || t.afterBreak || t.value.contains '\n') ts
    else { p with current := t, rest := ts, afterBreak := broken || t.afterBreak }

/-- Moves to the next token that is no comment. -/
def advance (p : Cursor) : Cursor := p.draw ctx false p.rest

/-- Moves on until the current token is one of `stops` or the end. -/
def skipLoop (stops : List TokenKind) : Nat → Cursor → Cursor
  | 0, p => p
  | fuel + 1, p =>
    if p.kind = .eof ∨ p.kind ∈ stops then p else skipLoop stops fuel (p.advance ctx)

/-- Records a problem at the current token and moves on to one of `stops`. -/
def recover (p : Cursor) (problem : Problem) (stops : List TokenKind) : Cursor :=
  let p := p.blame ctx problem
  p.skipLoop ctx stops (p.rest.length + 1)

/-! ## Nodes -/

/-- Takes the number of a new node. -/
def fresh (p : Cursor) : Nat × Cursor := (p.nextId, { p with nextId := p.nextId + 1 })

/-- A node made of the current token, which is passed. -/
def takeAtom (p : Cursor) (value : Atom) : Node × Cursor :=
  let (id, p) := p.fresh
  (.atom ⟨id, p.start, p.stop - p.start⟩ value, p.advance ctx)

/-- The number written by a token. A token without digits where they are needed
    may still be a number: `1.` is, `1e` is not. -/
def readNumber? (source : Text) : Option Binary64 :=
  let (negative, cs) := match source with
    | '-' :: rest => (true, rest)
    | rest => (false, rest)
  let whole := cs.takeWhile Text.isDigit
  let cs := cs.dropWhile Text.isDigit
  let (fraction, cs) := match cs with
    | '.' :: rest => (rest.takeWhile Text.isDigit, rest.dropWhile Text.isDigit)
    | rest => ([], rest)
  let exponent : Option Int := match cs with
    | [] => some 0
    | _ :: rest =>
      let (sign, rest) : Bool × Text := match rest with
        | '-' :: rest => (true, rest)
        | '+' :: rest => (false, rest)
        | rest => (false, rest)
      if rest.isEmpty then none
      else
        let n : Nat := Text.natOfDigits rest
        some (if sign then -(n : Int) else (n : Int))
  exponent.map fun e =>
    .ofDecimal negative (Text.natOfDigits (whole ++ fraction)) (e - (fraction.length : Int))

/-- Whether a number is written as an integer. -/
def isIntegral (source : Text) : Bool :=
  !source.any fun c => c = '.' || c = 'e' || c = 'E'

/-- A number node made of the current token. -/
def takeNumber (p : Cursor) : Node × Cursor :=
  let source := p.current.value
  match readNumber? source with
  | some value => p.takeAtom ctx (.number value (isIntegral source))
  | none => (p.blame ctx .numberFormat).takeAtom ctx (.number (.zero false) (isIntegral source))

/-- The end of a container whose content was read: past the closing token, or
    at the end of the input if there is none. -/
def close (p : Cursor) (id start : Nat) (closer : TokenKind) (problem : Problem) : Mark × Cursor :=
  if p.kind = closer then (⟨id, start, p.stop - start⟩, p.advance ctx)
  else
    let p := p.blame ctx problem
    (⟨id, start, p.start - start⟩, p)

/-- A word without the quotes around it. -/
def unquote (word : Text) : Text :=
  match word with
  | q :: rest =>
    if (q = '\'' ∨ q = '`' ∨ q = '"') ∧ rest.getLast? = some q then rest.dropLast else word
  | [] => []

/-- The key that the current token stands for, if it can be a key; a key that
    is not in double quotes is a problem. -/
def key? (p : Cursor) : Option (Text × Cursor) :=
  if p.kind = .string then some (p.current.value, p)
  else if p.kind = .unknown then some (unquote p.current.value, p.blame ctx .bareKey)
  else none

/-! ## The parts of a literal -/

mutual

/-- A value at the current token, if one starts there. -/
def value : Nat → Cursor → Option Node × Cursor
  | 0, p => (none, p)
  | fuel + 1, p =>
    match p.kind with
    | .openBrace =>
      let start := p.start
      let (id, p) := p.fresh
      let (properties, p) := members fuel [] false (p.advance ctx)
      let (mark, p) := p.close ctx id start .closeBrace .braceExpected
      (some (.object mark properties), p)
    | .openBracket =>
      let start := p.start
      let (id, p) := p.fresh
      let (items, p) := items fuel false (p.advance ctx)
      let (mark, p) := p.close ctx id start .closeBracket .bracketExpected
      (some (.array mark items), p)
    | .string =>
      let (n, p) := p.takeAtom ctx (.string (String.ofList p.current.value))
      (some n, p)
    | .number =>
      let (n, p) := p.takeNumber ctx
      (some n, p)
    | .true =>
      let (n, p) := p.takeAtom ctx (.boolean Bool.true)
      (some n, p)
    | .false =>
      let (n, p) := p.takeAtom ctx (.boolean Bool.false)
      (some n, p)
    | .null =>
      let (n, p) := p.takeAtom ctx .null
      (some n, p)
    | _ => (none, p)

/-- The items of an array up to its end.  `needsComma` is set once an item was
    read. -/
def items : Nat → Bool → Cursor → List Node × Cursor
  | 0, _, p => ([], p)
  | fuel + 1, needsComma, p =>
    if p.kind = .closeBracket ∨ p.kind = .eof then ([], p)
    else
      let comma := p.current.span.start
      let isComma := p.kind = .comma
      let p :=
        if isComma then (if needsComma then p else p.blame ctx .valueExpected).advance ctx
        else if needsComma then p.blame ctx .commaExpected
        else p
      if isComma ∧ p.kind = .closeBracket then
        ([], if needsComma then p.report .trailingComma ⟨comma, comma + 1⟩ else p)
      else
        match value fuel p with
        | (some n, p) =>
          let (ns, p) := items fuel Bool.true p
          (n :: ns, p)
        | (none, p) => items fuel Bool.true (p.recover ctx .valueExpected [.closeBracket, .comma])

/-- The properties of an object up to its end.  `seen` holds the keys read so
    far; `needsComma` is set once a property was read. -/
def members : Nat → List Text → Bool → Cursor → List Node × Cursor
  | 0, _, _, p => ([], p)
  | fuel + 1, seen, needsComma, p =>
    if p.kind = .closeBrace ∨ p.kind = .eof then ([], p)
    else
      let comma := p.current.span.start
      let isComma := p.kind = .comma
      let p' :=
        if isComma then (if needsComma then p else p.blame ctx .propertyExpected).advance ctx
        else if needsComma then p.blame ctx .commaExpected
        else p
      if isComma ∧ p'.kind = .closeBrace then
        ([], if needsComma then p'.report .trailingComma ⟨comma, comma + 1⟩ else p')
      else if !isComma ∧ needsComma ∧ p.kind ≠ .string then
        -- The leftover of a value that could not be read.
        members fuel seen needsComma (p.recover ctx .braceExpected [.closeBrace, .comma])
      else
        match p'.key? ctx with
        | some (key, p) =>
          let (n, p) := property fuel key (seen.contains key) p
          let (ns, p) := members fuel (key :: seen) Bool.true p
          (n :: ns, p)
        | none =>
          members fuel seen Bool.true (p'.recover ctx .propertyExpected [.closeBrace, .comma])

/-- The property whose key is the current token. -/
def property : Nat → Text → Bool → Cursor → Node × Cursor
  | 0, _, _, p => (.hole ⟨p.nextId, p.start, 0⟩ none default, p)
  | fuel + 1, key, repeated, p =>
    let (id, p) := p.fresh
    let start := p.start
    let keyStop := p.stop
    let (keyNode, p) := p.takeAtom ctx (.string (String.ofList key))
    let p := if repeated then p.report .duplicateKey ⟨start, keyStop⟩ else p
    let colon := if p.kind = .colon then some p.start else none
    let p := if colon.isSome then p.advance ctx else p.blame ctx .colonExpected
    if colon.isNone ∧ p.kind = .string ∧ p.afterBreak then
      -- The key of the next line.
      (.hole ⟨id, start, keyStop - start⟩ none keyNode, p)
    else
      match value fuel p with
      | (some v, p) => (.property ⟨id, start, v.stop - start⟩ colon keyNode v, p)
      | (none, p) =>
        let p :=
          if p.kind = .unknown then p
          else p.recover ctx .valueExpected [.closeBrace, .comma]
        let stop := match colon with
          | some c => c + 1
          | none => keyStop
        (.hole ⟨id, start, stop - start⟩ colon keyNode, p)

end

end Cursor

namespace Literal

/-- The extent of the last character that is not blank; for a text of blanks,
    its last byte. -/
def endMarkFrom (offset : Nat) (last : Option Span) : Text → Span
  | [] => last.getD ⟨offset - 1, offset⟩
  | c :: cs =>
    endMarkFrom (offset + c.utf8Size)
      (if Text.isBlank c then last else some ⟨offset, offset + c.utf8Size⟩) cs

/-- Where a problem at the end of a text is shown. -/
def endMark (cs : Text) : Span := endMarkFrom 0 none cs

/-- Reads tokens to the end. -/
def ofTokens (ctx : ParseContext) (tokens : List Token) : Literal :=
  let p := Cursor.draw ctx default Bool.false tokens
  let (root, p) := Cursor.value ctx (3 * tokens.length + 3) p
  let p :=
    if root.isNone then p.blame ctx .noRoot
    else if p.kind ≠ .eof then p.blame ctx .endExpected
    else p
  ⟨root, p.nextId, p.errors, p.comments⟩

/-- Parses a text.  Comments are problems unless they are allowed. -/
def parse (cs : Text) (allowComments : Bool) : Literal :=
  ofTokens ⟨allowComments, endMark cs⟩ (Token.scan cs)

end Literal

end AnnotatedJson
