/-
  Lines, and the two directions between byte offsets and editor positions.

  A position counts lines, which only a line feed ends, and UTF-16 units
  within the line.

  * `LineIndex.ofText` cuts a text into lines with their offsets;
  * `bisect` searches the starts of the lines, `lineOf` is the line it finds;
  * `positionAt` is the position of a byte offset, clamped to the text;
  * `offset?` is the offset of a position, absent on a line past the last;
    a column past the end of its line means the end of the line.
-/
import AnnotatedJson.Text.Basic

namespace AnnotatedJson

/-- A zero-based line and a column in UTF-16 units. -/
structure Position where
  line : Nat
  character : Nat
deriving DecidableEq, Repr, Inhabited

/-- A range between two positions. -/
structure Range where
  start : Position
  stop : Position
deriving DecidableEq, Repr, Inhabited

/-- A line: the byte offset of its first character, and its characters without
    the line feed. -/
structure Line where
  start : Nat
  content : Text
deriving DecidableEq, Repr, Inhabited

namespace Line

/-- The lines of a text.  The current line began at `start` and holds `seen`,
    reversed; `offset` is the offset of the characters still to be read. -/
def split (start : Nat) (seen : Text) (offset : Nat) : Text → List Line
  | [] => [⟨start, seen.reverse⟩]
  | c :: cs =>
    if c = '\n' then ⟨start, seen.reverse⟩ :: split (offset + 1) [] (offset + 1) cs
    else split start (c :: seen) (offset + c.utf8Size) cs

/-- The UTF-16 units of the characters that start before the `n`-th byte. -/
def unitsBefore : Text → Nat → Nat
  | [], _ => 0
  | c :: cs, n => if n = 0 then 0 else Text.charUnits c + unitsBefore cs (n - c.utf8Size)

/-- The bytes of the characters that start before the `k`-th UTF-16 unit. -/
def bytesBefore : Text → Nat → Nat
  | [], _ => 0
  | c :: cs, k => if k = 0 then 0 else c.utf8Size + bytesBefore cs (k - Text.charUnits c)

end Line

/-- The lines of a text with its length in bytes. -/
structure LineIndex where
  lines : List Line
  bytes : Nat
deriving DecidableEq, Repr, Inhabited

namespace LineIndex

/-- The index of a text. -/
def ofText (cs : Text) : LineIndex := ⟨Line.split 0 [] 0 cs, Text.bytes cs⟩

/-- The offsets at which lines start. -/
def starts (index : LineIndex) : List Nat := index.lines.map Line.start

/-- Where a number is in a sorted list. -/
inductive Spot where
  | hit (index : Nat)
  /-- It is not there and would have to be put at the index. -/
  | miss (index : Nat)
deriving DecidableEq, Repr, Inhabited

/-- Searches a sorted list from the index `lo` up to `hi`, by halving.  `fuel` bounds the
    number of halvings. -/
def bisect (xs : List Nat) (n : Nat) : Nat → Nat → Nat → Spot
  | 0, lo, _ => .miss lo
  | fuel + 1, lo, hi =>
    if lo < hi then
      let middle := (lo + hi) / 2
      match xs[middle]? with
      | some x =>
        if x = n then .hit middle
        else if x < n then bisect xs n fuel (middle + 1) hi
        else bisect xs n fuel lo middle
      | none => .miss lo
    else .miss lo

/-- The number of the line that holds the byte offset `o`: the one that starts there, or
    else the one before the place where such a line would be. -/
def lineOf (index : LineIndex) (o : Nat) : Nat :=
  match bisect index.starts o index.starts.length 0 index.starts.length with
  | .hit line => line
  | .miss line => line - 1

/-- The position of a byte offset.  An offset past the end means the end; one
    inside a character counts that character. -/
def positionAt (index : LineIndex) (offset : Nat) : Position :=
  let o := min offset index.bytes
  let line := index.lineOf o
  match index.lines[line]? with
  | some l => ⟨line, Line.unitsBefore l.content (o - l.start)⟩
  | none => ⟨line, 0⟩

/-- The byte offset of a position, if its line exists. -/
def offset? (index : LineIndex) (p : Position) : Option Nat :=
  index.lines[p.line]?.map fun l => l.start + Line.bytesBefore l.content p.character

/-- The range of a span. -/
def rangeOf (index : LineIndex) (s : Span) : Range :=
  ⟨index.positionAt s.start, index.positionAt s.stop⟩

end LineIndex

end AnnotatedJson
