/-
  Reading regular expressions.

  The notation has literals, `.`, `^`, `$`, groups, alternatives, repetitions,
  escapes and bracketed classes with their set operations.  There are no back
  references, no look-around and no Unicode classes by name: a text that uses them
  is no pattern.

  * `PatternFlags` are the modes that `(?i)` and its like switch;
  * `Pattern.ofText?` reads a text;
  * `Pattern.engine` matches keys against the pattern of a text.
-/
import AnnotatedJson.Pattern.Basic
import AnnotatedJson.Text.Digit

namespace AnnotatedJson

/-- The modes of reading. -/
structure PatternFlags where
  anyCase : Bool := false
  multiline : Bool := false
  dotAll : Bool := false
  spaced : Bool := false
deriving DecidableEq, Repr, Inhabited

namespace Pattern

/-! ## Pieces -/

/-- In spaced mode blanks and remarks are passed over. -/
def skipSpaced : Nat → Text → Text
  | 0, cs => cs
  | fuel + 1, cs =>
    match cs with
    | '#' :: rest => skipSpaced fuel (rest.dropWhile (· ≠ '\n'))
    | c :: rest => if Text.isBlank c then skipSpaced fuel rest else cs
    | [] => []

/-- What is left to read in a mode. -/
def settle (flags : PatternFlags) (cs : Text) : Text :=
  if flags.spaced then skipSpaced (cs.length + 1) cs else cs

/-- Characters with a meaning of their own. -/
def isMeta (c : Char) : Bool :=
  ['\\', '.', '+', '*', '?', '(', ')', '|', '[', ']', '{', '}', '^', '$', '#', '&', '-', '~'].contains c

/-- Characters that may follow a backslash and then stand for themselves. -/
def isEscapable (c : Char) : Bool :=
  isMeta c || (c.toNat < 128 && !c.isAlphanum && c ≠ '<' && c ≠ '>')

/-- The character with a code, if there is one. -/
def charOf? (n : Nat) : Option Char :=
  if n < 0xD800 ∨ (0xDFFF < n ∧ n < 0x110000) then some (Char.ofNat n) else none

/-- The number written by hexadecimal digits. -/
def hexNumber? (ds : Text) : Option Nat :=
  ds.foldl (fun n c => do some ((← n) * 16 + (← Text.hexValue? c))) (some 0)

/-- The character named by a hexadecimal escape, after its letter. -/
def hexChar? (width : Nat) : Text → Option (Char × Text)
  | '{' :: cs => do
    let body := cs.takeWhile (· ≠ '}')
    let rest ← match cs.dropWhile (· ≠ '}') with
      | '}' :: rest => some rest
      | _ => none
    let ds := body.filter fun c => !Text.isBlank c
    if ds.isEmpty ∨ 8 < ds.length then none
    else some (← charOf? (← hexNumber? ds), rest)
  | cs =>
    if cs.length < width then none
    else do some (← charOf? (← hexNumber? (cs.take width)), cs.drop width)

/-- What an escape stands for. -/
inductive Escape where
  | char (c : Char)
  | set (s : CharSet)
  | look (a : Assertion)
deriving Repr, Inhabited

/-- The word boundary named in braces. -/
def boundaryNamed? (name : Text) : Option Assertion :=
  match String.ofList name with
  | "start" => some .wordStart
  | "end" => some .wordEnd
  | "start-half" => some .wordStartHalf
  | "end-half" => some .wordEndHalf
  | _ => none

/-- A word boundary, after `\b`. -/
def boundary? : Text → Option (Escape × Text)
  | '{' :: c :: cs =>
    if c.isAlpha ∨ c = '-' then
      match (c :: cs).dropWhile (· ≠ '}') with
      | '}' :: rest => (boundaryNamed? ((c :: cs).takeWhile (· ≠ '}'))).map fun a => (.look a, rest)
      | _ => none
    else some (.look .boundary, '{' :: c :: cs)
  | cs => some (.look .boundary, cs)

/-- An escape, after the backslash. -/
def escape? : Text → Option (Escape × Text)
  | [] => none
  | 'x' :: cs => (hexChar? 2 cs).map fun (c, rest) => (.char c, rest)
  | 'u' :: cs => (hexChar? 4 cs).map fun (c, rest) => (.char c, rest)
  | 'U' :: cs => (hexChar? 8 cs).map fun (c, rest) => (.char c, rest)
  | 'd' :: cs => some (.set .decimal, cs)
  | 'D' :: cs => some (.set (.complement .decimal), cs)
  | 's' :: cs => some (.set .blank, cs)
  | 'S' :: cs => some (.set (.complement .blank), cs)
  | 'w' :: cs => some (.set .word, cs)
  | 'W' :: cs => some (.set (.complement .word), cs)
  | 'a' :: cs => some (.char '\x07', cs)
  | 'f' :: cs => some (.char '\x0c', cs)
  | 't' :: cs => some (.char '\t', cs)
  | 'n' :: cs => some (.char '\n', cs)
  | 'r' :: cs => some (.char '\r', cs)
  | 'v' :: cs => some (.char '\x0b', cs)
  | 'A' :: cs => some (.look .textStart, cs)
  | 'z' :: cs => some (.look .textEnd, cs)
  | 'b' :: cs => boundary? cs
  | 'B' :: cs => some (.look .noBoundary, cs)
  | '<' :: cs => some (.look .wordStart, cs)
  | '>' :: cs => some (.look .wordEnd, cs)
  | c :: cs => if isEscapable c then some (.char c, cs) else none

/-- A set in the current mode. -/
def inCase (flags : PatternFlags) (s : CharSet) : CharSet := if flags.anyCase then .anyCase s else s

/-! ## Bracketed classes -/

/-- The classes with a name. -/
def namedClass? (name : Text) : Option CharSet :=
  let upper := CharSet.run 65 90
  let lower := CharSet.run 97 122
  let digit := CharSet.run 48 57
  let alpha := CharSet.union upper lower
  match String.ofList name with
  | "alnum" => some (.union alpha digit)
  | "alpha" => some alpha
  | "ascii" => some (.run 0 127)
  | "blank" => some (.union (.run 9 9) (.run 32 32))
  | "cntrl" => some (.union (.run 0 31) (.run 127 127))
  | "digit" => some digit
  | "graph" => some (.run 33 126)
  | "lower" => some lower
  | "print" => some (.run 32 126)
  | "punct" => some (.union (.union (.run 33 47) (.run 58 64)) (.union (.run 91 96) (.run 123 126)))
  | "space" => some (.union (.run 9 13) (.run 32 32))
  | "upper" => some upper
  | "word" => some (.union (.union alpha digit) (.run 95 95))
  | "xdigit" => some (.union digit (.union (.run 65 70) (.run 97 102)))
  | _ => none

/-- A named class, after its `[:`. -/
def named? (cs : Text) : Option (CharSet × Text) :=
  let (negated, cs) := match cs with
    | '^' :: rest => (true, rest)
    | rest => (false, rest)
  match cs.dropWhile (· ≠ ':') with
  | ':' :: ']' :: rest =>
    (namedClass? (cs.takeWhile (· ≠ ':'))).map fun s =>
      (if negated then .complement s else s, rest)
  | _ => none

/-- A member of a class. -/
def classItem? : Text → Option (Escape × Text)
  | '\\' :: cs =>
    match escape? cs with
    | some (.look _, _) => none
    | other => other
  | c :: cs => some (.char c, cs)
  | [] => none

/-- A member of a class, or a run of characters. -/
def classRun? (flags : PatternFlags) (cs : Text) : Option (CharSet × Text) := do
  let (item, cs) ← classItem? cs
  let single : CharSet := match item with
    | .char c => inCase flags (.single c)
    | .set s => s
    | .look _ => .empty
  match settle flags cs with
  | '-' :: rest =>
    match settle flags rest with
    | [] => none
    | ']' :: _ | '-' :: _ => some (single, '-' :: rest)
    | rest =>
      let (last, cs) ← classItem? rest
      match item, last with
      | .char a, .char b =>
        if a.toNat ≤ b.toNat then some (inCase flags (.run a.toNat b.toNat), cs) else none
      | _, _ => none
  | cs => some (single, cs)

/-- A binary operation on sets. -/
inductive SetOp where
  | inter
  | diff
  | symmetric
deriving DecidableEq, Repr, Inhabited

/-- The result of an operation. -/
def SetOp.apply : SetOp → CharSet → CharSet → CharSet
  | .inter, s, t => .inter s t
  | .diff, s, t => .diff s t
  | .symmetric, s, t => .union (.diff s t) (.diff t s)

/-- What came before the current members: the left side of an operation. -/
def combine (left : Option (CharSet × SetOp)) (s : CharSet) : CharSet :=
  match left with
  | some (l, op) => op.apply l s
  | none => s

/-- The hyphens, then a closing bracket, that stand for themselves at the start
    of a class. -/
def classStart (flags : PatternFlags) (cs : Text) : CharSet × Text :=
  let cs := settle flags cs
  let hyphens := cs.takeWhile (· = '-')
  let rest := settle flags (cs.dropWhile (· = '-'))
  match hyphens.isEmpty, rest with
  | true, ']' :: rest => (.single ']', rest)
  | true, rest => (.empty, rest)
  | false, rest => (.single '-', rest)

/-- A class, after its opening bracket. -/
def charClass? (flags : PatternFlags) : Nat → Text → Option (CharSet × Text)
  | 0, _ => none
  | fuel + 1, cs =>
    let (negated, cs) := match settle flags cs with
      | '^' :: rest => (true, rest)
      | rest => (false, rest)
    let (first, cs) := classStart flags cs
    (members fuel none first cs).map fun (s, rest) =>
      (if negated then .complement s else s, rest)
where
  /-- The members of a class up to its closing bracket. -/
  members : Nat → Option (CharSet × SetOp) → CharSet → Text → Option (CharSet × Text)
    | 0, _, _, _ => none
    | fuel + 1, left, s, cs =>
      match settle flags cs with
      | [] => none
      | ']' :: rest => some (combine left s, rest)
      | '[' :: ':' :: rest =>
        match named? rest with
        | some (t, rest) => members fuel left (.union s (inCase flags t)) rest
        | none => nested fuel left s (':' :: rest)
      | '[' :: rest => nested fuel left s rest
      | '&' :: '&' :: rest => members fuel (some (combine left s, .inter)) .empty rest
      | '-' :: '-' :: rest => members fuel (some (combine left s, .diff)) .empty rest
      | '~' :: '~' :: rest => members fuel (some (combine left s, .symmetric)) .empty rest
      | cs =>
        match classRun? flags cs with
        | some (t, rest) => members fuel left (.union s t) rest
        | none => none
  /-- A class within a class. -/
  nested : Nat → Option (CharSet × SetOp) → CharSet → Text → Option (CharSet × Text)
    | 0, _, _, _ => none
    | fuel + 1, left, s, cs =>
      match charClass? flags fuel cs with
      | some (t, rest) => members fuel left (.union s t) rest
      | none => none

/-! ## Repetitions -/

/-- A decimal number with blanks around it; `none` inside if there are no digits. -/
def decimal? (cs : Text) : Option (Option Nat × Text) :=
  let cs := cs.dropWhile Text.isBlank
  let ds := cs.takeWhile Text.isDigit
  let rest := (cs.dropWhile Text.isDigit).dropWhile Text.isBlank
  if ds.isEmpty then some (none, rest)
  else
    let n := Text.natOfDigits ds
    if n < 0x100000000 then some (some n, rest) else none

/-- The bounds of a counted repetition, after its opening brace. -/
def bounds? (flags : PatternFlags) (cs : Text) : Option (Nat × Option Nat × Text) := do
  let (least, cs) ← decimal? (settle flags cs)
  match cs with
  | ',' :: cs =>
    match settle flags cs with
    | '}' :: rest => do some (← least, none, rest)
    | cs => do
      let least ← least
      let (most, cs) ← decimal? cs
      let most ← most
      match cs with
      | '}' :: rest => if least ≤ most then some (least, some most, rest) else none
      | _ => none
  | '}' :: rest => do
    let n ← least
    some (n, some n, rest)
  | _ => none

/-- Passes over the mark of a reluctant repetition. -/
def dropReluctant : Text → Text
  | '?' :: rest => rest
  | rest => rest

/-! ## Groups -/

/-- Switches a mode. -/
def switch? (on : Bool) (flags : PatternFlags) : Char → Option PatternFlags
  | 'i' => some { flags with anyCase := on }
  | 'm' => some { flags with multiline := on }
  | 's' => some { flags with dotAll := on }
  | 'x' => some { flags with spaced := on }
  | 'U' | 'u' | 'R' => some flags
  | _ => none

/-- The modes of a group up to the colon or the closing bracket.  `seen` holds
    the letters read, `on` tells on which side of the minus sign they are. -/
def modes? (flags : PatternFlags) (on : Bool) (seen : Text) : Text → Option (PatternFlags × Text × Text)
  | [] => none
  | c :: cs =>
    if c = ':' ∨ c = ')' then
      if seen.head? = some '-' then none else some (flags, seen, c :: cs)
    else if c = '-' then
      if on then modes? flags false ('-' :: seen) cs else none
    else if seen.contains c then none
    else (switch? on flags c).bind fun flags => modes? flags on (c :: seen) cs

/-- Whether a character may stand in the name of a group. -/
def isNameChar (first : Bool) (c : Char) : Bool :=
  c = '_' || (Text.isWord c && !Text.isDecimal c) ||
    (!first && (c = '.' || c = '[' || c = ']' || Text.isDecimal c))

/-- The name of a group up to its closing bracket. -/
def groupName? (cs : Text) : Option (Text × Text) :=
  let name := cs.takeWhile (· ≠ '>')
  match cs.dropWhile (· ≠ '>'), name with
  | '>' :: rest, c :: more =>
    if isNameChar true c && more.all (isNameChar false) then some (name, rest) else none
  | _, _ => none

/-- How a group begins. -/
inductive GroupStart where
  /-- A group with its own modes. -/
  | group (flags : PatternFlags) (name : Option Text)
  /-- Modes for what follows. -/
  | modes (flags : PatternFlags)
deriving Repr, Inhabited

/-- The beginning of a group, after its opening bracket. -/
def groupStart? (flags : PatternFlags) (cs : Text) : Option (GroupStart × Text) :=
  match settle flags cs with
  | '?' :: '=' :: _ | '?' :: '!' :: _ | '?' :: '<' :: '=' :: _ | '?' :: '<' :: '!' :: _ => none
  | '?' :: 'P' :: '<' :: rest | '?' :: '<' :: rest =>
    (groupName? rest).map fun (name, rest) => (.group flags (some name), rest)
  | '?' :: rest =>
    match modes? flags true [] rest with
    | some (inner, _, ':' :: rest) => some (.group inner none, rest)
    | some (inner, seen, ')' :: rest) => if seen.isEmpty then none else some (.modes inner, rest)
    | _ => none
  | rest => some (.group flags none, rest)

/-! ## Patterns -/

/-- The parts of a sequence, last first; a switch of modes is no part that could
    be repeated. -/
abbrev Parts := List (Option Pattern)

/-- The sequence of some parts. -/
def sequence (parts : Parts) : Pattern :=
  parts.foldl (fun p part => match part with
    | some q => if p = .empty then q else .seq q p
    | none => p) .empty

/-- The alternatives read so far, last first, with one more. -/
def alternatives (done : List Pattern) (p : Pattern) : Pattern :=
  done.foldl (fun q p => .alt p q) p

/-- Repeats the last part. -/
def repeatLast? (parts : Parts) (least : Nat) (most : Option Nat) : Option Parts :=
  match parts with
  | some p :: rest => some (some (.times p least most) :: rest)
  | _ => none

/-- A single character in the current mode. -/
def literal (flags : PatternFlags) (c : Char) : Pattern := .one (inCase flags (.single c))

/-- The pattern of an escape. -/
def ofEscape (flags : PatternFlags) : Escape → Pattern
  | .char c => literal flags c
  | .set s => .one s
  | .look a => .look a

/-- A part that is neither a group nor a repetition. -/
def primitive? (flags : PatternFlags) (fuel : Nat) : Text → Option (Pattern × Text)
  | '[' :: cs => (charClass? flags fuel cs).map fun (s, rest) => (.one s, rest)
  | '\\' :: cs => (escape? cs).map fun (e, rest) => (ofEscape flags e, rest)
  | '.' :: cs =>
    some (.one (if flags.dotAll then .complement .empty else .complement (.single '\n')), cs)
  | '^' :: cs => some (.look (if flags.multiline then .lineStart else .textStart), cs)
  | '$' :: cs => some (.look (if flags.multiline then .lineEnd else .textEnd), cs)
  | c :: cs => some (literal flags c, cs)
  | [] => none

/-- Alternatives up to a closing bracket or the end.  `names` holds the names of
    groups, which must differ. -/
def body? : Nat → PatternFlags → List Text → List Pattern → Parts → Text →
    Option (Pattern × List Text × Text)
  | 0, _, _, _, _, _ => none
  | fuel + 1, flags, names, done, parts, cs =>
    match settle flags cs with
    | [] => some (alternatives done (sequence parts), names, [])
    | ')' :: rest => some (alternatives done (sequence parts), names, ')' :: rest)
    | '|' :: rest => body? fuel flags names (sequence parts :: done) [] rest
    | '(' :: rest =>
      match groupStart? flags rest with
      | some (.modes inner, rest) => body? fuel inner names done (none :: parts) rest
      | some (.group inner name, rest) =>
        if name.any names.contains then none
        else
          match body? fuel inner (name.toList ++ names) [] [] rest with
          | some (p, names, ')' :: rest) => body? fuel flags names done (some p :: parts) rest
          | _ => none
      | none => none
    | '?' :: rest => (repeatLast? parts 0 (some 1)).bind fun parts =>
        body? fuel flags names done parts (dropReluctant rest)
    | '*' :: rest => (repeatLast? parts 0 none).bind fun parts =>
        body? fuel flags names done parts (dropReluctant rest)
    | '+' :: rest => (repeatLast? parts 1 none).bind fun parts =>
        body? fuel flags names done parts (dropReluctant rest)
    | '{' :: rest => (bounds? flags rest).bind fun (least, most, rest) =>
        (repeatLast? parts least most).bind fun parts =>
          body? fuel flags names done parts (dropReluctant (settle flags rest))
    | cs => (primitive? flags fuel cs).bind fun (p, rest) =>
        body? fuel flags names done (some p :: parts) rest

/-- Reads a text as a pattern. -/
def ofText? (cs : Text) : Option Pattern :=
  match body? (2 * cs.length + 2) {} [] [] [] cs with
  | some (p, _, []) => some p
  | _ => none

/-- The keys that the pattern of a text matches, if the text is one. -/
def engine (pattern : String) : Option (String → Bool) :=
  (ofText? pattern.toList).map fun p key => p.isMatch key.toList

end Pattern

end AnnotatedJson
