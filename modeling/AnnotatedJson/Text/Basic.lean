/-
  Texts measured in bytes.

  A text is a list of characters, and an offset into it counts the bytes of its
  UTF-8 form.  Positions sent to editors count UTF-16 units instead, so both
  measures live here.

  * `bytes` and `units` are the two lengths of a text;
  * `takeBytes` and `dropBytes` cut a text at the last character boundary that
    is not after a byte offset;
  * `slice?` is the text of a span, present when both ends are boundaries.
-/

namespace AnnotatedJson

/-- A text is a list of Unicode scalar values. -/
abbrev Text := List Char

/-- A half-open range of byte offsets. -/
structure Span where
  start : Nat
  stop : Nat
deriving DecidableEq, Repr, Inhabited

/-- The span moved `n` bytes to the right. -/
def Span.shift (n : Nat) (s : Span) : Span := ⟨s.start + n, s.stop + n⟩

namespace Text

/-! ## Lengths -/

/-- The number of UTF-16 units of a character. -/
def charUnits (c : Char) : Nat := if c.toNat < 0x10000 then 1 else 2

/-- The length in bytes. -/
def bytes : Text → Nat
  | [] => 0
  | c :: cs => c.utf8Size + bytes cs

/-- The length in UTF-16 units. -/
def units : Text → Nat
  | [] => 0
  | c :: cs => charUnits c + units cs

/-! ## Cutting at byte offsets -/

/-- The longest prefix of at most `n` bytes. -/
def takeBytes : Nat → Text → Text
  | _, [] => []
  | n, c :: cs => if c.utf8Size ≤ n then c :: takeBytes (n - c.utf8Size) cs else []

/-- What follows the longest prefix of at most `n` bytes. -/
def dropBytes : Nat → Text → Text
  | _, [] => []
  | n, c :: cs => if c.utf8Size ≤ n then dropBytes (n - c.utf8Size) cs else c :: cs

/-- The greatest character boundary that is not after `n`. -/
def floorBoundary (cs : Text) (n : Nat) : Nat := bytes (takeBytes n cs)

/-- Whether `n` is the offset of a character or of the end. -/
def isBoundary (cs : Text) (n : Nat) : Bool := floorBoundary cs n == n

/-- The text of a span; absent when the span is reversed, leaves the text or
    cuts a character. -/
def slice? (cs : Text) (s : Span) : Option Text :=
  if s.start ≤ s.stop && isBoundary cs s.start && isBoundary cs s.stop then
    some (takeBytes (s.stop - s.start) (dropBytes s.start cs))
  else none

end Text

end AnnotatedJson
