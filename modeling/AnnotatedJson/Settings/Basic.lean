/-
  Settings.

  * `SchemaBinding` binds a label to a schema;
  * `CacheSettings` tunes the cache, `Settings` holds everything;
  * `Settings.schemaUriFor` is the schema of a label.
-/
import AnnotatedJson.Json.Basic

namespace AnnotatedJson

/-- A label with the schema it is bound to. -/
structure SchemaBinding where
  label : String
  schema : String
  /-- The root of the schema is to be pointed at one of its definitions. -/
  amisStyle : Bool := false
deriving DecidableEq, Repr, Inhabited

/-- Settings of the cache. -/
structure CacheSettings where
  maxEntries : Nat := 10
  /-- Seconds between two sweeps; without any, there are no sweeps. -/
  cleanupIntervalSecs : Nat := 60
  /-- Seconds that an entry may go unused; the interval, if there is no value. -/
  ttlSecs : Option Nat := none
deriving DecidableEq, Repr, Inhabited

/-- What the cache works with. -/
structure CacheOptions where
  maxEntries : Nat
  cleanupSecs : Nat
  ttlSecs : Nat
deriving DecidableEq, Repr, Inhabited

/-- The options that settings of the cache mean.  At least one entry is kept. -/
def CacheSettings.options (c : CacheSettings) : CacheOptions :=
  ⟨max c.maxEntries 1, c.cleanupIntervalSecs, c.ttlSecs.getD c.cleanupIntervalSecs⟩

/-- The label that is bound by default. -/
def defaultLabel : String := "amis"

/-- The schema of labels that are not bound. -/
def defaultSchemaUri : String := "https://fex-team.github.io/amis-editor-demo/schema.json"

/-- The default bindings. -/
def defaultBindings : List SchemaBinding := [⟨defaultLabel, defaultSchemaUri, true⟩]

/-- All settings. -/
structure Settings where
  bindings : List SchemaBinding := defaultBindings
  /-- Whether syntax errors in regions are reported. -/
  validate : Bool := false
  cache : CacheSettings := {}
deriving DecidableEq, Repr, Inhabited

namespace Settings

/-- The binding of a label. -/
def binding? (s : Settings) (label : String) : Option SchemaBinding :=
  s.bindings.find? fun b => b.label = label

/-- The schema of a label. -/
def schemaUriFor (s : Settings) (label : Option String) : String :=
  ((label.bind s.binding?).map SchemaBinding.schema).getD defaultSchemaUri

end Settings

/-! ## JSON form -/

/-- The object form of a binding. -/
def SchemaBinding.toJson (b : SchemaBinding) : Json :=
  .object [("label", .string b.label), ("schema", .string b.schema),
    ("isAmisStyleSchema", .bool b.amisStyle)]

/-- The object form of the settings of the cache. -/
def CacheSettings.toJson (c : CacheSettings) : Json :=
  .object [("maxEntries", .ofNat c.maxEntries), ("cleanupIntervalSecs", .ofNat c.cleanupIntervalSecs),
    ("ttlSecs", .ofOption (c.ttlSecs.map .ofNat))]

/-- The object form of settings. -/
def Settings.toJson (s : Settings) : Json :=
  .object [("schema", .object [("map", .array (s.bindings.map SchemaBinding.toJson))]),
    ("validate", .bool s.validate), ("cache", s.cache.toJson)]

end AnnotatedJson
