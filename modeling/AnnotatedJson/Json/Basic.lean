/-
  JSON values.

  Numbers are integers or doubles, and the two kinds are never equal.  An
  object keeps its members in the order in which their names were first put
  in; no name occurs twice.

  * `Json.same` is equality of values, which ignores the order of members;
  * `Json.member?` looks a member up, `Json.insert` puts one in;
  * the `as…?` functions read a value of one kind.
-/
import AnnotatedJson.Number.Binary64

namespace AnnotatedJson

/-- A JSON number. -/
inductive Number where
  | int (value : Int)
  | float (value : Binary64)
deriving DecidableEq, Repr, Inhabited

/-- Numeric equality within one kind of number. -/
def Number.same : Number → Number → Bool
  | .int a, .int b => a == b
  | .float a, .float b => a.same b
  | _, _ => false

/-- A JSON value. -/
inductive Json where
  | null
  | bool (value : Bool)
  | number (value : Number)
  | string (value : String)
  | array (items : List Json)
  | object (members : List (String × Json))
deriving Repr, Inhabited

namespace Json

/-- The value stored under a name. -/
def lookup (name : String) : List (String × Json) → Option Json
  | [] => none
  | (k, v) :: ms => if k = name then some v else lookup name ms

/-- Puts a value under a name: in its old place if the name is there, last
    otherwise. -/
def insert (name : String) (value : Json) : List (String × Json) → List (String × Json)
  | [] => [(name, value)]
  | (k, v) :: ms => if k = name then (k, value) :: ms else (k, v) :: insert name value ms

/-- The member of an object. -/
def member? (v : Json) (name : String) : Option Json :=
  match v with
  | .object ms => lookup name ms
  | _ => none

/-- The item of an array. -/
def item? (v : Json) (i : Nat) : Option Json :=
  match v with
  | .array xs => xs[i]?
  | _ => none

/-! ## Reading one kind of value -/

def asString? : Json → Option String
  | .string s => some s
  | _ => none

def asBool? : Json → Option Bool
  | .bool b => some b
  | _ => none

def asInt? : Json → Option Int
  | .number (.int n) => some n
  | _ => none

def asNat? : Json → Option Nat
  | .number (.int (.ofNat n)) => some n
  | _ => none

def asArray? : Json → Option (List Json)
  | .array xs => some xs
  | _ => none

def asObject? : Json → Option (List (String × Json))
  | .object ms => some ms
  | _ => none

def isObject : Json → Bool
  | .object _ => true
  | _ => false

def isArray : Json → Bool
  | .array _ => true
  | _ => false

/-! ## Equality -/

mutual

/-- Equality of values; the order of members does not count. -/
def same : Json → Json → Bool
  | .null, .null => true
  | .bool a, .bool b => a == b
  | .number a, .number b => a.same b
  | .string a, .string b => a == b
  | .array xs, .array ys => sameItems xs ys
  | .object ms, .object ns => ms.length == ns.length && sameMembers ms ns
  | _, _ => false

/-- Equality of items, one by one. -/
def sameItems : List Json → List Json → Bool
  | [], [] => true
  | x :: xs, y :: ys => same x y && sameItems xs ys
  | _, _ => false

/-- Whether each member on the left has an equal one on the right. -/
def sameMembers : List (String × Json) → List (String × Json) → Bool
  | [], _ => true
  | (k, v) :: ms, ns =>
    (match lookup k ns with
      | some w => same v w
      | none => false) && sameMembers ms ns

end

instance : BEq Json := ⟨same⟩

/-- A natural number as a value. -/
def ofNat (n : Nat) : Json := .number (.int n)

/-- An integer as a value. -/
def ofInt (n : Int) : Json := .number (.int n)

/-- An optional value, with `null` for an absent one. -/
def ofOption (v : Option Json) : Json := v.getD .null

/-- An object without the members that have no value. -/
def ofFields (fields : List (String × Option Json)) : Json :=
  .object (fields.filterMap fun (k, v) => v.map fun v => (k, v))

end Json

end AnnotatedJson
