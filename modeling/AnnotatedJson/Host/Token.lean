/-
  Tokens of the host language.

  A token is read at the place where it is needed, since a slash, a backtick and
  an angle bracket mean different things in different places.

  * `HostToken.read` reads a token in the usual sense;
  * `HostToken.regex?` reads a regular expression;
  * `HostGap.read` reads the blanks and comments before a token.
-/
import AnnotatedJson.Text.Blank
import AnnotatedJson.Text.Digit

namespace AnnotatedJson

/-- The kinds of tokens. -/
inductive HostTokenKind where
  | word
  | privateName
  | number
  | string
  | backtick
  | mark
  | eof
deriving DecidableEq, Repr, Inhabited

/-- A token with its source text. -/
structure HostToken where
  kind : HostTokenKind
  source : Text
deriving DecidableEq, Repr, Inhabited

namespace HostToken

/-- The source text as a string. -/
def text (t : HostToken) : String := String.ofList t.source

/-- Blanks between tokens. -/
def isGapChar (c : Char) : Bool :=
  Text.isBlank c || ['\ufeff', '\u2060', '\u200b'].contains c

/-- Whether a character may stand in a name.  Whatever is neither blank nor
    punctuation may; digits not at the start. -/
def isNameChar (first : Bool) (c : Char) : Bool :=
  !(isGapChar c || c.toNat < 32 || (first && Text.isDigit c) ||
    [':', ';', '`', '"', '\'', '@', '#', '.', ',', '|', '^', '&', '<', '=', '>', '+', '-', '*', '/',
      '\\', '%', '?', '!', '~', '(', ')', '[', ']', '{', '}'].contains c)

/-- The name at the start of a text; a backslash starts an escape in it. -/
def name (first : Bool) : Text → Text
  | [] => []
  | '\\' :: 'u' :: cs => '\\' :: 'u' :: escapeRest cs
  | c :: cs => if isNameChar first c then c :: name false cs else []
where
  /-- The rest of a name that follows an escape. -/
  escapeRest : Text → Text
    | [] => []
    | '{' :: cs => '{' :: escapeRest cs
    | '}' :: cs => '}' :: escapeRest cs
    | '\\' :: 'u' :: cs => '\\' :: 'u' :: escapeRest cs
    | c :: cs => if isNameChar false c then c :: escapeRest cs else []

/-- The rest of a string up to its closing quote. -/
def stringRest (quote : Char) : Text → Text
  | [] => []
  | '\\' :: c :: cs => '\\' :: c :: stringRest quote cs
  | c :: cs => if c = quote then [c] else c :: stringRest quote cs

/-- Digits with underscores between them. -/
def digits (cs : Text) : Text := cs.takeWhile fun c => Text.isDigit c || c = '_'

/-- The exponent at the start of a text, if one is there. -/
def exponent : Text → Text
  | e :: cs =>
    if e = 'e' ∨ e = 'E' then
      match cs with
      | s :: d :: rest =>
        if (s = '+' ∨ s = '-') ∧ Text.isDigit d then e :: s :: digits (d :: rest)
        else if Text.isDigit s then e :: digits (s :: d :: rest)
        else []
      | [d] => if Text.isDigit d then [e, d] else []
      | [] => []
    else []
  | [] => []

/-- The number at the start of a text that starts with a digit, or with a point
    and a digit. -/
def number (cs : Text) : Text :=
  match cs with
  | '0' :: x :: rest =>
    if ['x', 'X', 'o', 'O', 'b', 'B'].contains x then
      '0' :: x :: rest.takeWhile fun c => c.isAlphanum || c = '_'
    else decimal cs
  | _ => decimal cs
where
  /-- A decimal number. -/
  decimal (cs : Text) : Text :=
    let whole := digits cs
    let cs := cs.drop whole.length
    let fraction := match cs with
      | '.' :: rest => '.' :: digits rest
      | _ => []
    let cs := cs.drop fraction.length
    let power := exponent cs
    let cs := cs.drop power.length
    whole ++ fraction ++ power ++ (if cs.head? = some 'n' then ['n'] else [])

/-- The marks of more than one character, longer ones first. -/
def longMarks : List String :=
  [">>>=", "...", "===", "!==", "**=", "<<=", ">>=", ">>>", "&&=", "||=", "??=", "=>", "==", "!=",
    "<=", ">=", "&&", "||", "??", "?.", "++", "--", "+=", "-=", "*=", "/=", "%=", "&=", "|=", "^=",
    "<<", ">>", "**"]

/-- The mark at the start of a text.  A question mark before a decimal fraction is
    no optional chain. -/
def mark (cs : Text) : Text :=
  match cs with
  | '?' :: '.' :: d :: _ => if Text.isDigit d then ['?'] else ['?', '.']
  | _ =>
    match longMarks.find? fun m => m.toList.isPrefixOf cs with
    | some m => m.toList
    | none => cs.take 1

/-- The token at the start of a text. -/
def read (cs : Text) : HostToken :=
  match cs with
  | [] => ⟨.eof, []⟩
  | '"' :: rest => ⟨.string, '"' :: stringRest '"' rest⟩
  | '\'' :: rest => ⟨.string, '\'' :: stringRest '\'' rest⟩
  | '`' :: _ => ⟨.backtick, ['`']⟩
  | '#' :: rest => ⟨.privateName, '#' :: name true rest⟩
  | '.' :: d :: _ => if Text.isDigit d then ⟨.number, number cs⟩ else ⟨.mark, mark cs⟩
  | c :: _ =>
    if Text.isDigit c then ⟨.number, number cs⟩
    else
      let word := name true cs
      if word.isEmpty then ⟨.mark, mark cs⟩ else ⟨.word, word⟩

/-- The body of a regular expression, after its first slash.  A slash in brackets
    does not end it. -/
def regexBody (inClass : Bool) : Text → Option Text
  | [] => none
  | '\n' :: _ => none
  | '\\' :: c :: cs => (regexBody inClass cs).map fun r => '\\' :: c :: r
  | '[' :: cs => (regexBody true cs).map ('[' :: ·)
  | ']' :: cs => (regexBody false cs).map (']' :: ·)
  | '/' :: cs =>
    if inClass then (regexBody inClass cs).map ('/' :: ·)
    else some ('/' :: cs.takeWhile fun c => c.isAlpha)
  | c :: cs => (regexBody inClass cs).map (c :: ·)

/-- The regular expression at the start of a text. -/
def regex? : Text → Option HostToken
  | '/' :: cs => (regexBody false cs).map fun body => ⟨.mark, '/' :: body⟩
  | _ => none

end HostToken

/-- A comment before a token. -/
structure HostComment where
  span : Span
  /-- A line feed stands between the comment and what is before it. -/
  afterBreak : Bool
deriving DecidableEq, Repr, Inhabited

/-- What stands before a token. -/
structure HostGap where
  comments : List HostComment
  /-- A line feed stands between the token and what is before it, comments
      included. -/
  afterBreak : Bool
  /-- The text from the token on, and its offset. -/
  rest : Text
  offset : Nat
deriving Repr, Inhabited

namespace HostGap

/-- A line comment, after its slashes, up to the end of the line. -/
def lineComment (cs : Text) : Text :=
  cs.takeWhile fun c => c ≠ '\n' ∧ c ≠ '\r' ∧ c ≠ '\u2028' ∧ c ≠ '\u2029'

/-- A block comment, after its first two characters, up to its end. -/
def blockComment : Text → Text
  | [] => []
  | '*' :: '/' :: _ => ['*', '/']
  | c :: cs => c :: blockComment cs

/-- The comment at the start of a text. -/
def comment? : Text → Option Text
  | '/' :: '/' :: cs => some ('/' :: '/' :: lineComment cs)
  | '/' :: '*' :: cs => some ('/' :: '*' :: blockComment cs)
  | _ => none

/-- Reads blanks and comments.  `broken` tells of a line feed since the last
    comment, `found` holds the comments so far, last first. -/
def readFrom : Nat → Bool → List HostComment → Nat → Text → HostGap
  | 0, broken, found, offset, cs => ⟨found.reverse, broken, cs, offset⟩
  | fuel + 1, broken, found, offset, cs =>
    match comment? cs with
    | some source =>
      let stop := offset + Text.bytes source
      readFrom fuel false (⟨⟨offset, stop⟩, broken⟩ :: found) stop (cs.drop source.length)
    | none =>
      match cs with
      | c :: rest =>
        if HostToken.isGapChar c then
          readFrom fuel (broken || c = '\n') found (offset + c.utf8Size) rest
        else ⟨found.reverse, broken || found.any (·.afterBreak), cs, offset⟩
      | [] => ⟨found.reverse, broken || found.any (·.afterBreak), [], offset⟩

/-- Reads blanks and comments. -/
def read (offset : Nat) (cs : Text) : HostGap := readFrom (cs.length + 1) false [] offset cs

end HostGap

end AnnotatedJson
