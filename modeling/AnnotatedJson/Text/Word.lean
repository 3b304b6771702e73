/-
  Words under the cursor.
-/
import AnnotatedJson.Text.Blank

namespace AnnotatedJson.Text

/-- Characters of a word: all but blanks, quotes and the punctuation of JSON. -/
def isWordChar (c : Char) : Bool :=
  !isBlank c && !(['"', ':', '{', '[', ',', ']', '}'].contains c)

/-- The offset at which the word that ends at `offset` starts.  An offset past the
    end means the end; inside a character no word ends. -/
def wordStart (cs : Text) (offset : Nat) : Nat :=
  let o := min offset (bytes cs)
  let before := takeBytes o cs
  if bytes before = o then o - bytes (before.reverse.takeWhile isWordChar) else o

end AnnotatedJson.Text
