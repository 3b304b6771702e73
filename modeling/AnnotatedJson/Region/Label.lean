/-
  Labels of annotation comments.
-/
import AnnotatedJson.Text.Blank

namespace AnnotatedJson

/-- A line of a comment without the decoration around its words. -/
def commentLine (line : Text) : Text :=
  Text.trim ((Text.trim line).dropWhile (· = '*'))

/-- The text between the marks of a comment. -/
def commentBody (comment : Text) : Text :=
  match Text.dropPrefix? ['/', '/'] comment with
  | some line => line
  | none =>
    let inner := (Text.dropPrefix? ['/', '*'] comment).getD comment
    (Text.dropSuffix? ['*', '/'] inner).getD inner

/-- The label that a comment spells: the words of its lines, joined by blanks. -/
def commentLabel (comment : Text) : Text :=
  Text.joinWith [' ']
    (((Text.lines (commentBody comment)).map commentLine).filter fun line => !line.isEmpty)

end AnnotatedJson
