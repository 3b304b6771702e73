/-
  A cache of artifacts that are derived from documents, one per document.

  * `ArtifactCache.lookup` finds an artifact that is recent enough,
    `ArtifactCache.insert` stores one.  Between the two, the artifact is made and
    other requests may run; the generation tells whether the cache was configured
    meanwhile;
  * a full cache gives up the entry that was used least recently;
  * `ArtifactCache.advance` lets time go by: entries that went unused for too long
    are swept out at regular ticks.
-/
import AnnotatedJson.Document.Basic
import AnnotatedJson.Settings.Basic

namespace AnnotatedJson

/-- What a cache holds for a document. -/
structure CacheEntry (α : Type) where
  uri : Uri
  version : Int
  language : String
  artifact : α
  /-- The second of the last use. -/
  lastUse : Nat
  /-- The stamp of the last use; no two uses have the same one. -/
  stamp : Nat
deriving Repr

namespace CacheEntry

/-- An entry serves a document that is not newer than it, if the language is the same. -/
def serves {α : Type} (e : CacheEntry α) (d : Document) : Bool :=
  d.version ≤ e.version && e.language = d.language

/-- An entry is ahead of a document that has the same language and an older version. -/
def isAhead {α : Type} (e : CacheEntry α) (d : Document) : Bool :=
  d.version < e.version && e.language = d.language

end CacheEntry

/-- At least one entry is kept. -/
def CacheOptions.atLeastOne (o : CacheOptions) : CacheOptions :=
  { o with maxEntries := max o.maxEntries 1 }

/-- A cache of artifacts. -/
structure ArtifactCache (α : Type) where
  entries : List (CacheEntry α)
  options : CacheOptions
  /-- How many stamps were given out. -/
  stamps : Nat
  /-- How often the cache was emptied as a whole. -/
  generation : Nat
  /-- The current second. -/
  now : Nat
  /-- The second at which the ticks began, while there are any. -/
  ticksSince : Option Nat

namespace ArtifactCache

variable {α : Type}

/-- The start of the ticks: there are none without an interval. -/
def ticksFrom (o : CacheOptions) (now : Nat) : Option Nat :=
  if o.cleanupSecs = 0 then none else some now

/-- An empty cache. -/
def ofOptions (o : CacheOptions) : ArtifactCache α :=
  ⟨[], o.atLeastOne, 0, 0, 0, ticksFrom o 0⟩

/-- How many entries there are. -/
def size (c : ArtifactCache α) : Nat := c.entries.length

/-- The entry of a document. -/
def entry? (c : ArtifactCache α) (uri : Uri) : Option (CacheEntry α) :=
  c.entries.find? fun e => e.uri = uri

/-- The artifact of a document, whatever its version. -/
def get? (c : ArtifactCache α) (uri : Uri) : Option α := (c.entry? uri).map CacheEntry.artifact

/-- Forgets a document. -/
def erase (c : ArtifactCache α) (uri : Uri) : ArtifactCache α :=
  { c with entries := c.entries.filter fun e => e.uri ≠ uri }

/-! ## Requests -/

/-- Marks the entry of a document as used just now. -/
def touch (c : ArtifactCache α) (uri : Uri) : ArtifactCache α :=
  { c with entries := c.entries.map fun e =>
      if e.uri = uri then { e with lastUse := c.now, stamp := c.stamps } else e }

/-- Finds an artifact that serves a document, and marks it as used.  Each lookup takes a
stamp. -/
def lookup (c : ArtifactCache α) (d : Document) : Option α × ArtifactCache α :=
  let c := { c with stamps := c.stamps + 1 }
  match c.entry? d.uri with
  | some e => if e.serves d then (some e.artifact, c.touch d.uri) else (none, c)
  | none => (none, c)

/-- The entry with the least stamp. -/
def leastRecent? : List (CacheEntry α) → Option (CacheEntry α)
  | [] => none
  | e :: rest =>
    match leastRecent? rest with
    | none => some e
    | some other => if e.stamp ≤ other.stamp then some e else some other

/-- Gives up the entry that was used least recently. -/
def evict (c : ArtifactCache α) : ArtifactCache α :=
  match leastRecent? c.entries with
  | some e => c.erase e.uri
  | none => c

/-- Puts an entry in place of what was there for its document. -/
def put (c : ArtifactCache α) (e : CacheEntry α) : ArtifactCache α :=
  { c with entries := (c.erase e.uri).entries ++ [e] }

/-- Stores an artifact that was asked for under a generation.  Nothing is stored when that
generation is over, or when there is an entry that is ahead of the document. -/
def insert (c : ArtifactCache α) (d : Document) (artifact : α) (generation : Nat) :
    ArtifactCache α :=
  if c.generation ≠ generation then c
  else
    let c := { c with stamps := c.stamps + 1 }
    let fresh : CacheEntry α := ⟨d.uri, d.version, d.language, artifact, c.now, c.stamps⟩
    match c.entry? d.uri with
    | some e => if e.isAhead d then c else c.put fresh
    | none => (if c.options.maxEntries ≤ c.size then c.evict else c).put fresh

/-- The artifact of a document, made if there is none that serves. -/
def fetch (c : ArtifactCache α) (d : Document) (make : Document → α) : α × ArtifactCache α :=
  match c.lookup d with
  | (some artifact, c) => (artifact, c)
  | (none, c) =>
    let artifact := make d
    (artifact, c.insert d artifact c.generation)

/-! ## Emptying -/

/-- Drops all entries and ends the generation. -/
def clear (c : ArtifactCache α) : ArtifactCache α :=
  { c with entries := [], generation := c.generation + 1 }

/-- Takes new options.  The ticks start anew if the options changed. -/
def configure (c : ArtifactCache α) (o : CacheOptions) : ArtifactCache α :=
  let o := o.atLeastOne
  { c.clear with
    options := o
    ticksSince := if c.options = o then c.ticksSince else ticksFrom o c.now }

/-- Drops all entries and ends the ticks. -/
def dispose (c : ArtifactCache α) : ArtifactCache α := { c.clear with ticksSince := none }

/-- Drops the entries that were last used before a second, and counts them. -/
def purge (c : ArtifactCache α) (cutoff : Int) : Nat × ArtifactCache α :=
  let kept := c.entries.filter fun e => cutoff ≤ (e.lastUse : Int)
  (c.entries.length - kept.length, { c with entries := kept })

/-! ## Time -/

/-- How many ticks there were up to a second. -/
def ticksUpTo (start interval second : Nat) : Nat := (second - start) / interval

/-- Lets time go by.  If a tick is reached, entries that went unused for too long are dropped. -/
def advance (c : ArtifactCache α) (secs : Nat) : ArtifactCache α :=
  let later := { c with now := c.now + secs }
  match c.ticksSince with
  | none => later
  | some start =>
    let interval := c.options.cleanupSecs
    if ticksUpTo start interval c.now < ticksUpTo start interval later.now then
      (later.purge ((later.now : Int) - (c.options.ttlSecs : Int))).2
    else later

end ArtifactCache

end AnnotatedJson
