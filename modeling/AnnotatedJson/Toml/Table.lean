/-
  Tables of TOML, and how keys and headers fill them.

  A table is made by a header, or on the way to another table, or by a key with
  dots; what may be added to it later depends on that.

  * `Toml.Item` is what stands under a name;
  * `Toml.put?` stores the value of a key, `Toml.openTable?` and
    `Toml.openElement?` follow headers;
  * `Toml.Item.toJson` is the value of an item.
-/
import AnnotatedJson.Json.Basic

namespace AnnotatedJson.Toml

/-- What stands under a name. -/
inductive Item where
  | value (v : Json)
  /-- A table.  It is implicit if no header of its own was seen, and dotted if a
      key with dots made it. -/
  | table (implicit dotted : Bool) (members : List (String × Item))
  /-- A list of tables, each opened by a header. -/
  | tables (elements : List (List (String × Item)))
deriving Inhabited

/-- The members of a table. -/
abbrev Members := List (String × Item)

/-- The item under a name. -/
def find? (name : String) : Members → Option Item
  | [] => none
  | (k, i) :: ms => if k = name then some i else find? name ms

/-- Puts an item under a name. -/
def store (name : String) (item : Item) : Members → Members
  | [] => [(name, item)]
  | (k, i) :: ms => if k = name then (k, item) :: ms else (k, i) :: store name item ms

/-- Changes the last of some tables. -/
def changeLast? (change : Members → Option Members) : List Members → Option (List Members)
  | [] => none
  | [ms] => (change ms).map fun ms => [ms]
  | ms :: rest => (changeLast? change rest).map fun rest => ms :: rest

/-- Changes the table at the end of a path; tables that are missing are made.
    With dots, tables that a header opened may not be entered. -/
def along? (dotted : Bool) (change : Bool → Members → Option Members) :
    List String → Bool → Members → Option Members
  | [], isDotted, ms => change isDotted ms
  | name :: names, _, ms =>
    match (find? name ms).getD (.table true dotted []) with
    | .value _ => none
    | .tables elements =>
      (changeLast? (along? dotted change names false) elements).map fun es => store name (.tables es) ms
    | .table implicit isDotted inner =>
      if dotted ∧ !implicit then none
      else
        (along? dotted change names isDotted inner).map fun inner =>
          store name (.table implicit isDotted inner) ms

/-- Stores the value of a key in a table.  The last table on the way must have
    been made by a key with dots exactly if this key has dots. -/
def putIn? (key : List String) (v : Json) (ms : Members) : Option Members :=
  match key.getLast? with
  | none => none
  | some name =>
    let path := key.dropLast
    along? true (fun isDotted ms =>
      if isDotted = path.isEmpty then none
      else if (find? name ms).isSome then none
      else some (store name (.value v) ms)) path false ms

/-- Stores the value of a key in the table that the last header opened. -/
def put? (header : List String) (key : List String) (v : Json) (root : Members) : Option Members :=
  along? false (fun _ ms => putIn? key v ms) header false root

/-- Follows the header of a table. -/
def openTable? (header : List String) (root : Members) : Option Members :=
  match header.getLast? with
  | none => none
  | some name =>
    along? false (fun _ ms =>
      match find? name ms with
      | none => some (store name (.table false false []) ms)
      | some (.table true false inner) => some (store name (.table false false inner) ms)
      | some _ => none) header.dropLast false root

/-- Follows the header of an element of a list of tables. -/
def openElement? (header : List String) (root : Members) : Option Members :=
  match header.getLast? with
  | none => none
  | some name =>
    along? false (fun _ ms =>
      match find? name ms with
      | none => some (store name (.tables [[]]) ms)
      | some (.tables elements) => some (store name (.tables (elements ++ [[]])) ms)
      | some _ => none) header.dropLast false root

/-! ## Values -/

mutual

/-- The value of an item. -/
def Item.toJson : Item → Json
  | .value v => v
  | .table _ _ ms => .object (membersJson ms)
  | .tables elements => .array (elementsJson elements)

/-- The values of the members of a table. -/
def membersJson : List (String × Item) → List (String × Json)
  | [] => []
  | (k, i) :: ms => (k, i.toJson) :: membersJson ms

/-- The values of some tables. -/
def elementsJson : List (List (String × Item)) → List Json
  | [] => []
  | ms :: rest => .object (membersJson ms) :: elementsJson rest

end

end AnnotatedJson.Toml
