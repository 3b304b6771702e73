/-
  Snapshots of documents.

  A snapshot holds one version of a text with its line index.  The document of a
  region shares the index of its host: its text has the same lines and offsets,
  as far as it goes.
-/
import AnnotatedJson.Text.LineIndex
import AnnotatedJson.Uri.Parse

namespace AnnotatedJson

/-- One version of a document. -/
structure Document where
  uri : Uri
  language : String
  version : Int
  text : Text
  index : LineIndex
deriving Repr, Inhabited

namespace Document

/-- The snapshot of a text. -/
def ofText (uri : Uri) (language : String) (version : Int) (text : Text) : Document :=
  ⟨uri, language, version, text, LineIndex.ofText text⟩

/-- The byte offset of a position.  A position past the text means its end. -/
def offsetAt (d : Document) (p : Position) : Nat :=
  let size := Text.bytes d.text
  min ((d.index.offset? p).getD size) size

/-- The position of a byte offset. -/
def positionAt (d : Document) (offset : Nat) : Position := d.index.positionAt offset

/-- The range of a span. -/
def rangeOf (d : Document) (s : Span) : Range := d.index.rangeOf s

end Document

end AnnotatedJson
