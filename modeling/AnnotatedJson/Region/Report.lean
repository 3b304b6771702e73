/-
  JSON forms of regions and region indices.
-/
import AnnotatedJson.Literal.Report
import AnnotatedJson.Region.Index

namespace AnnotatedJson

/-- The object form of a region. -/
def Region.toJson (r : Region) : Json :=
  .object [("range", r.span.toJson), ("language", .string r.language),
    ("type", .string r.kind.name), ("embedded", .bool r.isEmbedded),
    ("schema", .ofOption (r.label.map .string)),
    ("schemaUri", .ofOption (r.schemaUri.map .string)),
    ("text", .ofOption (r.text.map .ofText)),
    ("meta", .array (r.corrections.map Correction.toJson)),
    ("annotation", .ofOption (r.annotation.map Span.toJson))]

/-- Reads a region; what is absent has no value. -/
def Region.ofJson? (v : Json) : Option Region := do
  let strings (name : String) : Option String := (v.member? name).bind Json.asString?
  some {
    span := ← (← v.member? "range") |> Span.ofJson?
    language := (strings "language").getD literalLanguage
    kind := .custom
    label := strings "schema"
    schemaUri := strings "schemaUri"
    text := (strings "text").map String.toList
    corrections := (((v.member? "meta").bind Json.asArray?).getD []).filterMap Correction.ofJson?
    annotation := (v.member? "annotation").bind Span.ofJson? }

/-- The object form of a part of a range. -/
def LanguagePart.toJson (p : LanguagePart) : Json :=
  .object [("range", p.range.toJson), ("language", .string p.language),
    ("index", .ofOption (p.region.map .ofNat))]

/-- The object form of the owner of a position. -/
def RegionAt.toJson (r : RegionAt) : Json :=
  .object [("embedded", .bool r.index?.isSome), ("index", .ofOption (r.index?.map .ofNat)),
    ("language", .string r.language), ("region", r.region.toJson)]

end AnnotatedJson
