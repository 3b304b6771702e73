/-
  Reading TOML.

  * `Toml.value?` reads a value;
  * `Toml.read?` reads a document into a JSON object.
-/
import AnnotatedJson.Toml.Scalar
import AnnotatedJson.Toml.Table

namespace AnnotatedJson.Toml

/-- The object of the keys of an inline table. -/
def inlineTable? (pairs : List (List String × Json)) : Option Json :=
  (pairs.foldlM (fun ms (key, v) => putIn? key v ms) []).map fun ms => .object (membersJson ms)

mutual

/-- A value. -/
def value? : Nat → Text → Option (Json × Text)
  | 0, _ => none
  | fuel + 1, cs =>
    match cs with
    | '"' :: _ | '\'' :: _ => (string? cs).map fun (s, rest) => (.string s, rest)
    | '[' :: rest => do
      let (items, rest) ← items? fuel rest
      some (.array items, rest)
    | '{' :: rest =>
      match skipBlanks rest with
      | '}' :: rest => some (.object [], rest)
      | _ => do
        let (pairs, rest) ← pairs? fuel rest
        some (← inlineTable? pairs, rest)
    | _ => scalar? cs

/-- The items of an array, after its opening bracket. -/
def items? : Nat → Text → Option (List Json × Text)
  | 0, _ => none
  | fuel + 1, cs => do
    match ← skipLines? (cs.length + 1) cs with
    | ']' :: rest => some ([], rest)
    | cs => do
      let (v, rest) ← value? fuel cs
      match ← skipLines? (rest.length + 1) rest with
      | ']' :: rest => some ([v], rest)
      | ',' :: rest => do
        let (vs, rest) ← items? fuel rest
        some (v :: vs, rest)
      | _ => none

/-- The keys of an inline table, after its opening brace. -/
def pairs? : Nat → Text → Option (List (List String × Json) × Text)
  | 0, _ => none
  | fuel + 1, cs => do
    let (key, rest) ← key? (cs.length + 1) cs
    match rest with
    | '=' :: rest => do
      let (v, rest) ← value? fuel (skipBlanks rest)
      match skipBlanks rest with
      | '}' :: rest => some ([(key, v)], rest)
      | ',' :: rest => do
        let (more, rest) ← pairs? fuel rest
        some ((key, v) :: more, rest)
      | _ => none
    | _ => none

end

/-- The state of reading a document: the tables so far, and the header that keys
    belong to. -/
structure State where
  root : Members := []
  header : List String := []
deriving Inhabited

/-- Reads one line: a header, or a key with its value. -/
def line? (s : State) (cs : Text) : Option (State × Text) :=
  match cs with
  | '[' :: '[' :: rest => do
    let (key, rest) ← key? (rest.length + 1) rest
    match rest with
    | ']' :: ']' :: rest => some ({ root := ← openElement? key s.root, header := key }, rest)
    | _ => none
  | '[' :: rest => do
    let (key, rest) ← key? (rest.length + 1) rest
    match rest with
    | ']' :: rest => some ({ root := ← openTable? key s.root, header := key }, rest)
    | _ => none
  | _ => do
    let (key, rest) ← key? (cs.length + 1) cs
    match rest with
    | '=' :: rest => do
      let (v, rest) ← value? (rest.length + 1) (skipBlanks rest)
      some ({ s with root := ← put? s.header key v s.root }, rest)
    | _ => none

/-- Reads lines to the end. -/
def lines? : Nat → State → Text → Option Members
  | 0, _, _ => none
  | fuel + 1, s, cs => do
    match ← skipLines? (cs.length + 1) cs with
    | [] => some s.root
    | cs => do
      let (s, rest) ← line? s cs
      match ← skipComment? (skipBlanks rest) with
      | [] => some s.root
      | rest => do lines? fuel s (← newline? rest)

/-- Reads a document, which may start with a byte order mark, into an object. -/
def read? (cs : Text) : Option Json :=
  let cs := if cs.head? = some '\ufeff' then cs.drop 1 else cs
  (lines? (cs.length + 1) {} cs).map fun ms => .object (membersJson ms)

end AnnotatedJson.Toml
