/-
  Places in a JSON value.

  A pointer is the list of keys and indices from the root to a value inside it,
  written as a text of tokens that each follow a slash; in a token `~1` stands for
  a slash and `~0` for a tilde.

  * `Located` is a value with its pointer;
  * `Json.locate?` follows a written pointer;
  * `pointerText` writes one.
-/
import AnnotatedJson.Json.Segment
import AnnotatedJson.Text.Digit

namespace AnnotatedJson

/-- A value inside another, with the way to it. -/
structure Located where
  /-- The steps from the root, last first. -/
  steps : List Segment
  value : Json
deriving Repr, Inhabited

namespace Located

/-- The root itself. -/
def root (v : Json) : Located := ⟨[], v⟩

/-- A member of an object. -/
def member? (l : Located) (name : String) : Option Located :=
  (l.value.member? name).map fun v => ⟨.key name :: l.steps, v⟩

/-- An item of an array. -/
def item? (l : Located) (i : Nat) : Option Located :=
  (l.value.item? i).map fun v => ⟨.index i :: l.steps, v⟩

/-- All items of an array. -/
def items? (l : Located) : Option (List Located) :=
  l.value.asArray?.map fun xs => xs.mapIdx fun i v => ⟨.index i :: l.steps, v⟩

/-- All members of an object with their names. -/
def members? (l : Located) : Option (List (String × Located)) :=
  l.value.asObject?.map fun ms => ms.map fun (k, v) => (k, ⟨.key k :: l.steps, v⟩)

end Located

/-! ## Written pointers -/

/-- The text of a token; `~1` is resolved before `~0`. -/
def unescapeToken (token : String) : String := (token.replace "~1" "/").replace "~0" "~"

/-- A token with tildes and slashes escaped. -/
def escapeToken (token : String) : String := (token.replace "~" "~0").replace "/" "~1"

/-- The index that a token spells: digits without a leading zero. -/
def indexToken? (token : String) : Option Nat :=
  match token.toList with
  | [] => none
  | ['0'] => some 0
  | '0' :: _ => none
  | cs =>
    if cs.all Text.isDigit then
      let n := Text.natOfDigits cs
      if n < 0x10000000000000000 then some n else none
    else none

/-- One step along a written pointer. -/
def Located.token? (l : Located) (token : String) : Option Located :=
  match l.value with
  | .object _ => l.member? token
  | .array _ => (indexToken? token).bind l.item?
  | _ => none

/-- The value that a written pointer leads to. -/
def Json.locate? (v : Json) (pointer : String) : Option Located :=
  if pointer.isEmpty then some (.root v)
  else
    match pointer.splitOn "/" with
    | "" :: tokens => tokens.foldlM (fun l token => l.token? (unescapeToken token)) (.root v)
    | _ => none

/-- A segment as a token. -/
def Segment.token : Segment → String
  | .key name => escapeToken name
  | .index i => toString i

/-- The written pointer of steps that are given last first. -/
def pointerText (steps : List Segment) : String :=
  steps.foldl (fun rest s => "/" ++ s.token ++ rest) ""

end AnnotatedJson
