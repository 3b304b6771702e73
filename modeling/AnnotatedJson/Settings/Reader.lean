/-
  Reading settings.

  A record is given as an object or as an array of its fields in order.  Names
  that mean nothing are passed over; a field given under two of its names is an
  error.

  * `Settings.ofJson?` reads the JSON form of settings;
  * `Settings.ofClient?` reads what a client sends.
-/
import AnnotatedJson.Settings.Basic

namespace AnnotatedJson

/-! ## Records -/

/-- A field: its name and the other names it goes by. -/
structure RecordField where
  name : String
  aliases : List String := []
deriving Repr, Inhabited

/-- Whether a name is one of a field's. -/
def RecordField.hasName (f : RecordField) (name : String) : Bool :=
  f.name == name || f.aliases.contains name

/-- The values of the fields of a record, with nothing for those that are absent.
    Arrays may be longer than the record only if `longer` says so. -/
def Json.fields? (longer : Bool) (fields : List RecordField) : Json → Option (List (Option Json))
  | .object members =>
    fields.mapM fun f =>
      match members.filter fun m => f.hasName m.1 with
      | [] => some none
      | [m] => some (some m.2)
      | _ => none
  | .array items =>
    if items.length ≤ fields.length ∨ longer then
      some (fields.mapIdx fun i _ => items[i]?)
    else none
  | _ => none

/-- The value of a field that is read by a function, or a default. -/
def readField? {α : Type} (read : Json → Option α) (fallback : Option α) : Option Json → Option α
  | some v => read v
  | none => fallback

/-- Reads a size: a natural number of 64 bits. -/
def Json.asSize? (v : Json) : Option Nat := v.asNat?.filter (· < 0x10000000000000000)

/-- Reads a size that may be `null`. -/
def Json.asOptionalSize? : Json → Option (Option Nat)
  | .null => some none
  | v => v.asSize?.map some

/-! ## Settings -/

variable (longer : Bool)

/-- Reads a binding. -/
def SchemaBinding.ofJson? (v : Json) : Option SchemaBinding := do
  match ← v.fields? longer [⟨"label", []⟩, ⟨"schema", ["schemaUri"]⟩,
      ⟨"isAmisStyleSchema", ["is_amis_style_schema"]⟩] with
  | [label, schema, style] =>
    some ⟨← readField? Json.asString? none label, ← readField? Json.asString? none schema,
      ← readField? Json.asBool? (some false) style⟩
  | _ => none

/-- Reads the table of bindings. -/
def bindingsOfJson? (v : Json) : Option (List SchemaBinding) := do
  match ← v.fields? longer [⟨"map", []⟩] with
  | [map] =>
    readField? (fun items => items.asArray?.bind fun xs => xs.mapM (SchemaBinding.ofJson? longer))
      (some defaultBindings) map
  | _ => none

/-- Reads the settings of the cache. -/
def CacheSettings.ofJson? (v : Json) : Option CacheSettings := do
  match ← v.fields? longer [⟨"maxEntries", ["max_entries"]⟩,
      ⟨"cleanupIntervalSecs", ["cleanup_interval_secs"]⟩, ⟨"ttlSecs", ["ttl_secs"]⟩] with
  | [entries, interval, ttl] =>
    let c : CacheSettings := {}
    some ⟨← readField? Json.asSize? (some c.maxEntries) entries,
      ← readField? Json.asSize? (some c.cleanupIntervalSecs) interval,
      ← readField? Json.asOptionalSize? (some c.ttlSecs) ttl⟩
  | _ => none

/-- Reads settings from a value. -/
def Settings.ofValue? (v : Json) : Option Settings := do
  match ← v.fields? longer [⟨"schema", []⟩, ⟨"validate", []⟩, ⟨"cache", []⟩] with
  | [schema, validate, cache] =>
    some ⟨← readField? (bindingsOfJson? longer) (some defaultBindings) schema,
      ← readField? Json.asBool? (some false) validate,
      ← readField? (CacheSettings.ofJson? longer) (some {}) cache⟩
  | _ => none

namespace Settings

/-- Reads the JSON form of settings. -/
def ofJson? (v : Json) : Option Settings := ofValue? false v

/-- The section of a client's configuration that holds the settings. -/
def clientSection : String := "amisLanguageServer"

/-- Reads what a client sends: the settings themselves, or an object that holds
    them as its section.  Nothing is read from `null`. -/
def ofClient? : Json → Option Settings
  | .null => none
  | v => ofJson? ((v.member? clientSection).getD v)

end Settings

end AnnotatedJson
