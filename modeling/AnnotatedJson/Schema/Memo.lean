/-
  Schemas by location, loaded once.

  Schemas given inline are served as they are.  Any other location has a cell
  that is filled by the first load that succeeds; a load that fails leaves the
  cell empty, so that the next request loads again.  A reset forgets all cells: a
  load under way then fills a cell that nobody looks at any more.

  * `SchemaMemo.inlineAt?`, `SchemaMemo.cellFor` and `SchemaMemo.content?` are the three looks that
    a request takes, `SchemaMemo.find` puts them together;
  * `SchemaMemo.settle` stores the result of a load;
  * `SchemaMemo.get` finds a schema and loads it if need be;
  * `SchemaMemo.reset` replaces the inline schemas, then forgets the cells.
-/
import AnnotatedJson.Error
import AnnotatedJson.Json.Reader

namespace AnnotatedJson

/-- The known schemas. -/
structure SchemaMemo where
  /-- Schemas given inline. -/
  inline : List (String × Json) := []
  /-- The cell of each location. -/
  cells : List (String × Nat) := []
  /-- The schemas in the cells that are filled. -/
  filled : List (Nat × Json) := []
  /-- The number of the next cell. -/
  next : Nat := 0
deriving Inhabited

/-- What is known of a location. -/
inductive SchemaState where
  | ready (schema : Json)
  /-- The schema has to be loaded into a cell. -/
  | pending (cell : Nat)
deriving Inhabited

namespace SchemaMemo

/-! ## Resets -/

/-- Replaces the inline schemas. -/
def setInline (memo : SchemaMemo) (inline : List (String × Json)) : SchemaMemo :=
  { memo with inline := inline }

/-- Forgets the cells of some locations. -/
def forget (memo : SchemaMemo) (part : String → Bool) : SchemaMemo :=
  { memo with cells := memo.cells.filter fun (uri, _) => !part uri }

/-- Replaces the inline schemas and forgets the rest. -/
def reset (memo : SchemaMemo) (inline : List (String × Json)) : SchemaMemo :=
  (memo.setInline inline).forget fun _ => true

/-! ## Requests -/

/-- The inline schema of a location. -/
def inlineAt? (memo : SchemaMemo) (uri : String) : Option Json := Json.lookup uri memo.inline

/-- The cell of a location; it gets one if it has none. -/
def cellFor (memo : SchemaMemo) (uri : String) : Nat × SchemaMemo :=
  match memo.cells.lookup uri with
  | some cell => (cell, memo)
  | none => (memo.next, { memo with cells := (uri, memo.next) :: memo.cells, next := memo.next + 1 })

/-- The schema in a cell. -/
def content? (memo : SchemaMemo) (cell : Nat) : Option Json := memo.filled.lookup cell

/-- What is known of a location; it gets a cell if it has none and is not inline. -/
def find (memo : SchemaMemo) (uri : String) : SchemaState × SchemaMemo :=
  match memo.inlineAt? uri with
  | some schema => (.ready schema, memo)
  | none =>
    let (cell, memo) := memo.cellFor uri
    match memo.content? cell with
    | some schema => (.ready schema, memo)
    | none => (.pending cell, memo)

/-- The locations that were asked for and have no schema. -/
def unfilled (memo : SchemaMemo) : List String :=
  memo.cells.filterMap fun (uri, cell) =>
    if (memo.content? cell).isSome then none else some uri

/-- Reads the body of a schema. -/
def parseBody (uri : String) (body : Except Error String) : Except Error Json :=
  body.bind fun text =>
    match Json.ofText? text.toList with
    | some schema => .ok schema
    | none => .error (.schemaParse uri)

/-- Stores the result of a load, if it is one. -/
def settle (memo : SchemaMemo) (cell : Nat) (result : Except Error Json) : SchemaMemo :=
  match result with
  | .ok schema => { memo with filled := (cell, schema) :: memo.filled }
  | .error _ => memo

/-- The schema at a location, loaded by a request if need be. -/
def get {σ : Type} (request : String → σ → Except Error String × σ) (uri : String)
    (memo : SchemaMemo) (s : σ) : Except Error Json × SchemaMemo × σ :=
  match memo.find uri with
  | (.ready schema, memo) => (.ok schema, memo, s)
  | (.pending cell, memo) =>
    let (body, s) := request uri s
    let result := parseBody uri body
    (result, memo.settle cell result, s)

end SchemaMemo

end AnnotatedJson
