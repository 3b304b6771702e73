/-
  Masked texts: everything before a region turned into spaces.

  A masked text keeps every byte offset and every line of its source, so that
  what is found in it lies at the same place in the source.
-/
import AnnotatedJson.Text.Basic

namespace AnnotatedJson.Text

/-- A character as seen through the mask: line breaks stay, any other character
    becomes one space per byte. -/
def maskChar (c : Char) : Text :=
  if c = '\n' ∨ c = '\r' then [c] else List.replicate c.utf8Size ' '

/-- The text with every character masked. -/
def blankOut (cs : Text) : Text := cs.flatMap maskChar

/-- The first `stop` bytes of the text, with the first `start` of them masked.
    Both bounds are clamped to the text and moved back to a boundary. -/
def maskPrefix (cs : Text) (start stop : Nat) : Text :=
  let shown := takeBytes stop cs
  blankOut (takeBytes start shown) ++ dropBytes start shown

end AnnotatedJson.Text
