/-
  The quick test of a schema, on values.

  The test that chooses between alternatives looks at a node: at how its number is written, and at
  its properties.  Where numbers keep their kind and no key is repeated, it depends on the value of
  the node only.

  * `Schema.accepts`: the test of a value;
  * `Schema.fits_eq_of_views`: the test of a node is that of its value;
  * `Schema.accepts_congr`: equal values pass the same tests;
  * `Literal.fits_by_value`: both in the literals of measured texts.
-/
import Mathlib
import AnnotatedJson.Proofs.Magnitude
import AnnotatedJson.Proofs.Sameness
import AnnotatedJson.Proofs.Views

namespace AnnotatedJson

namespace Json

/-- The name of the type of a value. -/
def typeName : Json → String
  | .null => "null"
  | .bool _ => "boolean"
  | .number _ => "number"
  | .string _ => "string"
  | .array _ => "array"
  | .object _ => "object"

/-- Whether a value is an integer. -/
def isInteger : Json → Bool
  | .number (.int _) => true
  | _ => false

/-- Whether a value is of the type with a name. -/
def isOf (v : Json) (name : String) : Bool :=
  if name = "integer" then v.isInteger else name == v.typeName

end Json

namespace Schema

/-! ## The test of a value -/

/-- Whether a value is of one of the types that the keyword `type` gives. -/
def typed (expected v : Json) : Bool :=
  match expected with
  | .string name => v.isOf name
  | .array names => (names.filterMap Json.asString?).any v.isOf
  | _ => true

/-- Whether a value passes the quick test of a schema: `type`, `const`, `enum`, and `const` and
    `enum` one level down. -/
def accepts (root schema v : Json) : Bool :=
  match resolveValue root schema with
  | .object members =>
    let schema := Json.object members
    (schema.member? "type").all (fun expected => typed expected v) && fitsValue schema v &&
      ((schema.member? "properties").bind Json.asObject?).all fun properties =>
        properties.all fun entry => (v.member? entry.1).all (fitsValue (resolveValue root entry.2))
  | .bool b => b
  | _ => true

/-! ## The test of a node is that of its value -/

section
variable {n : Node} {root : Json}

theorem acceptsType_of_ne {name : String} (h : name ≠ "integer") (n : Node) :
    acceptsType name n = (name == n.typeName) := by
  unfold acceptsType
  split
  · exact absurd rfl h
  · rfl

theorem fitsType_eq_typed (h : ∀ name, acceptsType name n = n.toJson.isOf name) (expected : Json) :
    fitsType expected n = typed expected n.toJson := by
  cases expected with
  | string name => exact h name
  | array names => simp only [fitsType, typed, h]
  | null | bool | number | object => rfl

/-- Only the value of an object has members. -/
theorem member?_toJson_of_not_object (hn : n.isProperty = false) (ho : n.isObject = false)
    (key : String) : n.toJson.member? key = none := by
  cases n with
  | atom mark a =>
    rw [Node.toJson]
    cases a with
    | number x integral =>
      rw [Node.atomJson]
      rcases Node.numberJson_cases x integral with h | ⟨k, h⟩ <;> rw [h] <;> rfl
    | null | boolean | string => rfl
  | array mark items => rw [Node.toJson]; rfl
  | object => cases ho
  | property | hole => cases hn

/-- A test of properties is a test of members, where the two views agree. -/
theorem fitsProperty_eq (hviews : ∀ key, n.toJson.member? key = (n.valueOf? key).map Node.toJson)
    (key : String) (sub : Json) :
    fitsProperty root n key sub = (n.toJson.member? key).all (fitsValue (resolveValue root sub)) := by
  rw [hviews, fitsProperty]
  cases n.valueOf? key <;> rfl

/-- **The test of a node is that of its value**, where the types of the two and the views of its
    properties agree. -/
theorem fits_eq_of_views (hn : n.isProperty = false)
    (htype : ∀ name, acceptsType name n = n.toJson.isOf name)
    (hviews : n.isObject = true → ∀ key, n.toJson.member? key = (n.valueOf? key).map Node.toJson)
    (schema : Json) : fits root schema n = accepts root schema n.toJson := by
  unfold fits accepts
  cases resolveValue root schema with
  | object members =>
    dsimp only
    congr 1
    · congr 1
      cases (Json.object members).member? "type" with
      | none => rfl
      | some expected => exact fitsType_eq_typed htype expected
    · cases ((Json.object members).member? "properties").bind Json.asObject? with
      | none => rfl
      | some properties =>
        rw [Option.all_some]
        cases ho : n.isObject with
        | true =>
          cases n with
          | object mark ps =>
            simp only [← fitsProperty_eq (hviews rfl)]
          | atom | array | property | hole => cases ho
        | false =>
          have hnone := member?_toJson_of_not_object hn ho
          cases n with
          | object => cases ho
          | atom | array | property | hole => simp [hnone]
  | null | bool | number | string | array => rfl

end

/-! ## Equal values pass the same tests -/

section
variable {u v : Json}

theorem isOf_congr (h : Json.same u v = true) : u.isOf = v.isOf := by
  cases u with
  | null => rw [← Json.same_null_iff.1 h]
  | bool b => rw [← Json.same_bool_iff.1 h]
  | string s => rw [← Json.same_string_iff.1 h]
  | number a =>
    obtain ⟨b, rfl, hab⟩ := Json.same_number_iff.1 h
    cases a <;> cases b <;> first | rfl | cases hab
  | array xs =>
    obtain ⟨ys, rfl, -⟩ := Json.same_array_iff.1 h
    rfl
  | object ms =>
    obtain ⟨ns, rfl, -⟩ := Json.same_object_iff.1 h
    rfl

theorem fitsValue_congr (hu : u.Keyed) (hv : v.Keyed) (h : Json.same u v = true) (schema : Json) :
    fitsValue schema u = fitsValue schema v := by
  have hsame : ∀ w : Json, (w == u) = (w == v) := Json.same_congr hu hv h
  simp only [fitsValue, hsame]

theorem member?_all_congr (hu : u.Keyed) (hv : v.Keyed) (h : Json.same u v = true) (schema : Json)
    (name : String) : (u.member? name).all (fitsValue schema) = (v.member? name).all
    (fitsValue schema) := by
  cases hx : u.member? name with
  | some x =>
    obtain ⟨y, hy, hxy⟩ := Json.exists_member?_of_same h hx
    rw [hy]
    exact fitsValue_congr (hu.member? hx) (hv.member? hy) hxy schema
  | none =>
    cases hy : v.member? name with
    | none => rfl
    | some y =>
      obtain ⟨x, hx', -⟩ := Json.exists_member?_of_same (Json.same_symm hu hv h) hy
      rw [hx] at hx'
      cases hx'

/-- **Equal values pass the same tests.** -/
theorem accepts_congr (hu : u.Keyed) (hv : v.Keyed) (h : Json.same u v = true) (root schema : Json) :
    accepts root schema u = accepts root schema v := by
  unfold accepts
  cases resolveValue root schema with
  | object members =>
    simp only [typed, isOf_congr h, fitsValue_congr hu hv h, member?_all_congr hu hv h]
  | null | bool | number | string | array => rfl

end

end Schema

namespace Literal

variable {cs : Text} {allow : Bool}

/-- In a measured text the type of a node is that of its value. -/
theorem Measured.typeName_eq (h : Measured cs allow) {e : Option Nat × Node}
    (he : e ∈ (parse cs allow).arena) (hp : e.2.isProperty = false) :
    e.2.typeName = e.2.toJson.typeName ∧
      Schema.acceptsType "integer" e.2 = e.2.toJson.isInteger := by
  obtain ⟨parent, n⟩ := e
  dsimp only at hp ⊢
  cases n with
  | atom mark a =>
    rw [Node.toJson]
    cases a with
    | number x integral =>
      rw [Node.atomJson]
      rcases h.kept he rfl with ⟨v, hv, rfl⟩ | ⟨hv, rfl⟩ <;> rw [hv] <;> exact ⟨rfl, rfl⟩
    | null | boolean | string => exact ⟨rfl, rfl⟩
  | array | object =>
    rw [Node.toJson]
    exact ⟨rfl, rfl⟩
  | property | hole => cases hp

theorem Measured.acceptsType_eq (h : Measured cs allow) {e : Option Nat × Node}
    (he : e ∈ (parse cs allow).arena) (hp : e.2.isProperty = false) (name : String) :
    Schema.acceptsType name e.2 = e.2.toJson.isOf name := by
  obtain ⟨hname, hint⟩ := h.typeName_eq he hp
  unfold Json.isOf
  split
  · next hi => rw [hi, hint]
  · next hi => rw [Schema.acceptsType_of_ne hi, hname]

/-- In a measured text the quick test of a node is that of its value. -/
theorem Measured.fits_eq (h : Measured cs allow) {e : Option Nat × Node}
    (he : e ∈ (parse cs allow).arena) (hp : e.2.isProperty = false) (root schema : Json) :
    Schema.fits root schema e.2 = Schema.accepts root schema e.2.toJson := by
  obtain ⟨r, hr, habove⟩ := above_of_mem_arena he
  have hs : e.2.Shaped := (parse_shaped cs allow r hr).2 e.2 habove
  refine Schema.fits_eq_of_views hp (h.acceptsType_eq he hp) (fun ho key => ?_) schema
  exact Node.member?_toJson_of_once hs ho ((h.keys e he).once key)

/-- **The quick test depends on the value only.**  In every text that repeats no key and whose numbers
    keep their kind, a node that is no property passes the quick test of a schema iff its value does;
    and nodes of two such texts with equal values choose the same alternatives. -/
theorem fits_by_value (h : Measured cs allow) (root : Json) :
    (∀ e ∈ (parse cs allow).arena, e.2.isProperty = false → ∀ schema,
      Schema.fits root schema e.2 = Schema.accepts root schema e.2.toJson) ∧
    ∀ cs' allow', Measured cs' allow' →
      ∀ e ∈ (parse cs allow).arena, ∀ e' ∈ (parse cs' allow').arena,
      e.2.isProperty = false → e'.2.isProperty = false → (e.2.toJson == e'.2.toJson) = true →
      ∀ alternatives, Schema.chosen root (some e.2) alternatives =
        Schema.chosen root (some e'.2) alternatives := by
  constructor
  · exact fun e he hp => h.fits_eq he hp root
  · intro cs' allow' h' e he e' he' hp hp' hsame alternatives
    have hfits : ∀ schema, Schema.fits root schema e.2 = Schema.fits root schema e'.2 := by
      intro schema
      calc Schema.fits root schema e.2
          = Schema.accepts root schema e.2.toJson := h.fits_eq he hp root schema
        _ = Schema.accepts root schema e'.2.toJson :=
          Schema.accepts_congr e.2.toJson_keyed e'.2.toJson_keyed hsame root schema
        _ = Schema.fits root schema e'.2 := (h'.fits_eq he' hp' root schema).symm
    simp only [Schema.chosen, hfits]

/-- `{"n":9007199254740993,"m":[1.5]}` -/
def packed : Text :=
  ['{', '"', 'n', '"', ':', '9', '0', '0', '7', '1', '9', '9', '2', '5', '4', '7', '4', '0', '9', '9',
    '3', ',', '"', 'm', '"', ':', '[', '1', '.', '5', ']', '}']

/-- `{m:[15e-1],/**/n:9007199254740993,}` -/
def loose : Text :=
  ['{', 'm', ':', '[', '1', '5', 'e', '-', '1', ']', ',', '/', '*', '*', '/', 'n', ':', '9', '0', '0',
    '7', '1', '9', '9', '2', '5', '4', '7', '4', '0', '9', '9', '3', ',', '}']

theorem fits_by_value_packed : Measured packed true ∧ Measured loose true ∧
    ∃ n n', (parse packed true).root = some n ∧ (parse loose true).root = some n' ∧
      (n.toJson == n'.toJson) = true ∧ ∀ root,
        (∀ schema, Schema.fits root schema n = Schema.accepts root schema n.toJson) ∧
        ∀ alternatives, Schema.chosen root (some n) alternatives =
          Schema.chosen root (some n') alternatives := by
  have hpacked : Measured packed true := ⟨by decide +kernel, by decide +kernel, by decide +kernel⟩
  have hloose : Measured loose true := ⟨by decide +kernel, by decide +kernel, by decide +kernel⟩
  have hsame : ((parse packed true).root.bind fun n => (parse loose true).root.map fun n' =>
      n.toJson == n'.toJson) = some true := by decide +kernel
  obtain ⟨n, hn, hsome⟩ := Option.bind_eq_some_iff.1 hsame
  obtain ⟨n', hn', heq⟩ := Option.map_eq_some_iff.1 hsome
  have he : (none, n) ∈ (parse packed true).arena := by
    rw [arena, hn]
    exact Node.mem_listing_self none n
  have he' : (none, n') ∈ (parse loose true).arena := by
    rw [arena, hn']
    exact Node.mem_listing_self none n'
  have hp := (parse_shaped packed true n hn).1
  have hp' := (parse_shaped loose true n' hn').1
  refine ⟨hpacked, hloose, n, n', hn, hn', heq, fun root => ?_⟩
  obtain ⟨hnode, hchosen⟩ := fits_by_value hpacked root
  exact ⟨hnode _ he hp, hchosen loose true hloose _ he _ he' hp hp' heq⟩

end Literal

end AnnotatedJson
