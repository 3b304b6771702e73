/-
  Blank and control characters, trimming and lines.

  * `isBlank` is the Unicode property White_Space;
  * `isControl` is the general category Cc;
  * `trim` removes blanks at both ends, `lines` splits at line feeds.
-/
import AnnotatedJson.Text.Basic

namespace AnnotatedJson.Text

/-- The characters with the Unicode property White_Space. -/
def isBlank (c : Char) : Bool :=
  let n := c.toNat
  (0x09 ≤ n && n ≤ 0x0D) || n == 0x20 || n == 0x85 || n == 0xA0 || n == 0x1680 ||
    (0x2000 ≤ n && n ≤ 0x200A) || n == 0x2028 || n == 0x2029 || n == 0x202F || n == 0x205F ||
    n == 0x3000

/-- The control characters: U+0000 to U+001F and U+007F to U+009F. -/
def isControl (c : Char) : Bool :=
  let n := c.toNat
  n < 0x20 || (0x7F ≤ n && n ≤ 0x9F)

/-- The text without its leading blanks. -/
def trimStart (cs : Text) : Text := cs.dropWhile isBlank

/-- The text without its trailing blanks. -/
def trimEnd (cs : Text) : Text := (cs.reverse.dropWhile isBlank).reverse

/-- The text without blanks at either end. -/
def trim (cs : Text) : Text := trimEnd (trimStart cs)

/-- A line without the carriage return at its end, if it has one. -/
def dropReturn (line : Text) : Text :=
  if line.getLast? = some '\r' then line.dropLast else line

/-- Splits a text into lines; `seen` holds the current line, reversed.  Nothing
    follows a line feed at the very end. -/
def linesFrom (seen : Text) : Text → List Text
  | [] => if seen.isEmpty then [] else [seen.reverse]
  | c :: cs => if c = '\n' then dropReturn seen.reverse :: linesFrom [] cs else linesFrom (c :: seen) cs

/-- The lines of a text.  A line ends at a line feed, which may follow a
    carriage return; neither belongs to the line. -/
def lines (cs : Text) : List Text := linesFrom [] cs

/-- Texts joined by a separator. -/
def joinWith (sep : Text) : List Text → Text
  | [] => []
  | [t] => t
  | t :: ts => t ++ sep ++ joinWith sep ts

/-- The text after `head`, when it starts with it. -/
def dropPrefix? (head : Text) (cs : Text) : Option Text :=
  if head.isPrefixOf cs then some (cs.drop head.length) else none

/-- The text before `tail`, when it ends with it. -/
def dropSuffix? (tail : Text) (cs : Text) : Option Text :=
  if tail.isSuffixOf cs then some (cs.take (cs.length - tail.length)) else none

end AnnotatedJson.Text
