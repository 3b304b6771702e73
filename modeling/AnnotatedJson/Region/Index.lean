/-
  The regions of a document.

  * `RegionIndex.ofRegions` orders the regions of a document;
  * `RegionIndex.owner` is the region that owns a position, or the host around it;
  * `RegionIndex.overlapping` cuts a range into parts of one language each;
  * `RegionIndex.subDocument?` makes a document of a region.
-/
import AnnotatedJson.Document.Basic
import AnnotatedJson.Region.Basic

namespace AnnotatedJson

/-- A document with its regions in order. -/
structure RegionIndex where
  document : Document
  regions : List Region
deriving Repr, Inhabited

/-- A part of a range in one language. -/
structure LanguagePart where
  range : Range
  language : String
  /-- The number of the region; the host has none. -/
  region : Option Nat
deriving DecidableEq, Repr, Inhabited

/-- The owner of a position. -/
inductive RegionAt where
  | embedded (index : Nat) (region : Region)
  /-- The host, from the end of the last region before the position. -/
  | host (region : Region)
deriving Repr, Inhabited

namespace RegionAt

/-- The region that owns the position. -/
def region : RegionAt → Region
  | embedded _ r => r
  | host r => r

/-- The number of the region that owns the position. -/
def index? : RegionAt → Option Nat
  | embedded i _ => some i
  | host _ => none

/-- The language at the position. -/
def language (r : RegionAt) : String := r.region.language

end RegionAt

/-- The URI of the document of a region: language and number stand before the
    extension of the file name.  A dot at the start of a name begins no
    extension. -/
def subDocumentUri (uri : Uri) (language : String) (index : Nat) : Uri :=
  let path := uri.path.text
  let file := (path.reverse.takeWhile (· ≠ '/')).reverse
  let directory := path.take (path.length - file.length)
  let mark := '.' :: language.toList ++ '.' :: (toString index).toList
  let extension := (file.reverse.takeWhile (· ≠ '.')).reverse
  let stem := file.take (file.length - extension.length - 1)
  let named := if extension.length < file.length ∧ !stem.isEmpty then
      stem ++ mark ++ '.' :: extension
    else file ++ mark
  uri.withPath (directory ++ named)

namespace RegionIndex

/-- The index of a document; regions are put in order of their starts. -/
def ofRegions (document : Document) (regions : List Region) : RegionIndex :=
  ⟨document, regions.mergeSort fun a b => a.span.start ≤ b.span.start⟩

/-- The language of the host. -/
def hostLanguage (x : RegionIndex) : String := x.document.language

/-- The range of the whole document. -/
def fullRange (x : RegionIndex) : Range :=
  ⟨⟨0, 0⟩, x.document.positionAt (Text.bytes x.document.text)⟩

/-! ## Positions -/

/-- The owner of an offset among regions numbered from `i`, where the host begins
    at `fill`. -/
def ownerFrom (x : RegionIndex) (offset : Nat) (i fill : Nat) : List Region → RegionAt
  | [] => .host (.host fill (Text.bytes x.document.text) x.hostLanguage)
  | r :: rs =>
    if offset < r.span.start then
      .host (.host fill (Text.bytes x.document.text) x.hostLanguage)
    else if offset ≤ r.span.stop then .embedded i r
    else ownerFrom x offset (i + 1) r.span.stop rs

/-- The owner of a position: the first region that contains it, or the host. -/
def owner (x : RegionIndex) (p : Position) : RegionAt :=
  x.ownerFrom (x.document.offsetAt p) 0 0 x.regions

/-! ## Ranges -/

/-- The parts of a range from `position` at `offset` on, among regions numbered
    from `i`. -/
def partsFrom (x : RegionIndex) (range : Range) (stop : Nat) (i offset : Nat) (position : Position) :
    List Region → List LanguagePart
  | [] => if offset < stop then [⟨⟨position, range.stop⟩, x.hostLanguage, none⟩] else []
  | r :: rs =>
    if offset < r.span.stop ∧ r.span.start < stop then
      let first := x.document.positionAt (max r.span.start offset)
      let last := min r.span.stop stop
      let lastPosition := x.document.positionAt last
      let before : List LanguagePart :=
        if offset < r.span.start then [⟨⟨position, first⟩, x.hostLanguage, none⟩] else []
      let inside : List LanguagePart :=
        if r.span.start < last then [⟨⟨first, lastPosition⟩, r.language, some i⟩] else []
      before ++ inside ++ partsFrom x range stop (i + 1) last lastPosition rs
    else partsFrom x range stop (i + 1) offset position rs

/-- The parts of a range, each in one language. -/
def overlapping (x : RegionIndex) (range : Range) : List LanguagePart :=
  x.partsFrom range (x.document.offsetAt range.stop) 0 (x.document.offsetAt range.start) range.start
    x.regions

/-! ## Sub-documents -/

/-- The document of a region with a number. -/
def subDocument (x : RegionIndex) (index : Nat) (r : Region) : Document :=
  ⟨subDocumentUri x.document.uri r.language index, r.language, x.document.version,
    r.maskedText x.document.text, x.document.index⟩

/-- The document of the owner of a position; the host counts as a region after all
    others. -/
def subDocumentAt (x : RegionIndex) (p : Position) : Document :=
  match x.owner p with
  | .embedded i r => x.subDocument i r
  | .host r => x.subDocument x.regions.length r

/-- The document of the region with a number. -/
def subDocument? (x : RegionIndex) (index : Nat) : Option Document :=
  x.regions[index]?.map (x.subDocument index)

/-- The languages of a document, each once, the host's first. -/
def languages (x : RegionIndex) : List String :=
  x.regions.foldl (fun seen r => if seen.contains r.language then seen else seen ++ [r.language])
    [x.hostLanguage]

end RegionIndex

end AnnotatedJson
