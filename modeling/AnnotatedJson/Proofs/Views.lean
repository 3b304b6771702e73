/-
  The two views of a property: the node that its key finds, and the member of the value of its
  object.

  A key finds the first property that has it.  The value of an object has the value of the last one,
  among those that have a value.

  * `Node.named`: the properties of an object with a key;
  * `Node.member?_toJson`: the member of the value of an object;
  * `Node.member?_toJson_of_once`: the two views agree on a key that names at most one property;
  * `Literal.views_differ`: they differ on a key that names two;
  * `Literal.property_views`: both views in the literal of any text.
-/
import Mathlib
import AnnotatedJson.Schema.Navigate
import AnnotatedJson.Proofs.Paths

namespace AnnotatedJson

namespace Node

variable {n : Node} {key : String}

/-- The properties of an object with a key, in text order. -/
def named (n : Node) (key : String) : List Node :=
  match n with
  | object _ properties => properties.filter fun p => p.keyText? = some key
  | _ => []

/-- A key finds the first property that has it. -/
theorem property?_eq_head? (n : Node) (key : String) : n.property? key = (n.named key).head? := by
  cases n with
  | object mark properties => exact (List.head?_filter ..).symm
  | atom | array | property | hole => rfl

/-- A later member takes the place of an earlier one; properties without a value are passed over. -/
theorem lookup_membersJson_eq {ns : List Node} (h : ∀ n ∈ ns, n.keyText?.isSome = true)
    (seen : List (String × Json)) :
    Json.lookup key (membersJson seen ns) =
      ((((ns.filter fun p => p.keyText? = some key).filterMap value?).getLast?).map toJson).or
        (Json.lookup key seen) := by
  induction ns generalizing seen with
  | nil => rw [membersJson]; rfl
  | cons n ns ih =>
    obtain ⟨hn, hns⟩ := List.forall_mem_cons.1 h
    cases n with
    | property mark colon k v =>
      obtain ⟨name, hname⟩ := Option.isSome_iff_exists.1 hn
      have htext : k.text? = some name := hname
      rw [membersJson, ih hns, Json.lookup_insert, htext, Option.getD_some, List.filter_cons]
      by_cases hk : name = key
      · subst hk
        rw [if_pos rfl, if_pos (by simp [keyText?_property, htext]), List.filterMap_cons]
        simp only [value?, List.getLast?_cons]
        cases ((ns.filter fun p => p.keyText? = some name).filterMap value?).getLast? <;> rfl
      · rw [if_neg hk, if_neg (by simp [keyText?_property, htext, hk])]
    | hole mark colon k =>
      have hnone : (hole mark colon k).value? = none := rfl
      rw [membersJson, ih hns, List.filter_cons]
      · split
        · rw [List.filterMap_cons, hnone]
        · rfl
      · simp
    | atom | array | object => cases hn

/-- The value of an object has the value of the last property with a key that has one. -/
theorem member?_toJson (hs : n.Shaped) (ho : n.isObject = true) (key : String) :
    n.toJson.member? key = ((n.named key).filterMap value?).getLast?.map toJson := by
  cases n with
  | object mark properties =>
    rw [toJson, Json.member?, lookup_membersJson_eq hs, Json.lookup, Option.or_none]
    rfl
  | atom | array | property | hole => cases ho

/-- The two views agree on a key that names at most one property. -/
theorem member?_toJson_of_once (hs : n.Shaped) (ho : n.isObject = true)
    (honce : (n.named key).length ≤ 1) : n.toJson.member? key = (n.valueOf? key).map toJson := by
  rw [member?_toJson hs ho, valueOf?, property?_eq_head?]
  cases hnamed : n.named key with
  | nil => rfl
  | cons p ps =>
    rw [hnamed, List.length_cons] at honce
    obtain rfl : ps = [] := List.length_eq_zero_iff.1 (by omega)
    cases hv : p.value? <;> simp [hv]

/-- Where no key is repeated, every key names at most one property. -/
theorem DistinctKeys.once (h : n.DistinctKeys) (key : String) : (n.named key).length ≤ 1 := by
  cases n with
  | object mark properties =>
    have hcount := List.nodup_iff_count_le_one.1 h (some key)
    rw [List.count_eq_countP, List.countP_map, List.countP_eq_length_filter] at hcount
    have hnamed : (object mark properties).named key =
        properties.filter ((fun k => k == some key) ∘ keyText?) := by
      refine List.filter_congr fun p _ => ?_
      simp [beq_eq_decide]
    rw [hnamed]
    exact hcount
  | atom | array | property | hole => exact Nat.zero_le 1

end Node

namespace Literal

/-- `{"a":null,"a":true}` -/
def repeatedMember : Text :=
  ['{', '"', 'a', '"', ':', 'n', 'u', 'l', 'l', ',', '"', 'a', '"', ':', 't', 'r', 'u', 'e', '}']

/-- A schema for objects whose `a` is true. -/
def trueMember : Json := .object [("properties", .object [("a", .object [("const", .bool true)])])]

/-- The object `{"a":true}`, as a schema. -/
def trueObject : Json := .object [("const", .object [("a", .bool true)])]

/-- The two views of a key that names two properties differ, and one quick test reads both: the
    object passes as a whole for the value that its member does not pass for. -/
theorem views_differ : ∃ o, (parse repeatedMember true).root = some o ∧ o.isObject = true ∧
    o.toJson.member? "a" = some (.bool true) ∧ (o.valueOf? "a").map Node.toJson = some .null ∧
    Schema.fits trueObject trueObject o = true ∧ Schema.fits trueMember trueMember o = false := by
  refine ⟨.object ⟨0, 0, 19⟩ [
      .property ⟨1, 1, 8⟩ (some 4) (.atom ⟨2, 1, 3⟩ (.string "a")) (.atom ⟨3, 5, 4⟩ .null),
      .property ⟨4, 10, 8⟩ (some 13) (.atom ⟨5, 10, 3⟩ (.string "a"))
        (.atom ⟨6, 14, 4⟩ (.boolean true))], ?_, rfl, ?_, ?_, ?_, ?_⟩
  · cbv
  · cbv
  · cbv
  · cbv
  · cbv

variable (cs : Text) (allow : Bool)

/-- **Both views of a property.**  In the literal of every text, the value of an object has under a
    key the value of the last property with that key that has a value.  Under a key that names at
    most one property it has a member iff the key finds a property with a value, and then the value
    of that property; and this is what the quick test of a schema reads. -/
theorem property_views : ∀ e ∈ (parse cs allow).arena, e.2.isObject = true → ∀ key,
    e.2.toJson.member? key = ((e.2.named key).filterMap Node.value?).getLast?.map Node.toJson ∧
    ((e.2.named key).length ≤ 1 →
      (∀ v, e.2.toJson.member? key = some v ↔
        ∃ p c, e.2.property? key = some p ∧ p.value? = some c ∧ c.toJson = v) ∧
      ∀ root sub, Schema.fitsProperty root e.2 key sub =
        (e.2.toJson.member? key).all (Schema.fitsValue (Schema.resolveValue root sub))) := by
  intro e he ho key
  obtain ⟨r, hr, habove⟩ := above_of_mem_arena he
  have hs : e.2.Shaped := (parse_shaped cs allow r hr).2 e.2 habove
  refine ⟨Node.member?_toJson hs ho key, fun honce => ?_⟩
  have hviews := Node.member?_toJson_of_once hs ho honce
  constructor
  · intro v
    rw [hviews, Node.valueOf?]
    simp [Option.bind_eq_some_iff]
  · intro root sub
    rw [hviews, Schema.fitsProperty]
    cases e.2.valueOf? key <;> rfl

/-- `{"a":null,"a":true,"b":false}` -/
def repeatedAndSingle : Text :=
  ['{', '"', 'a', '"', ':', 'n', 'u', 'l', 'l', ',', '"', 'a', '"', ':', 't', 'r', 'u', 'e', ',', '"',
    'b', '"', ':', 'f', 'a', 'l', 's', 'e', '}']

theorem property_views_single : ∃ e ∈ (parse repeatedAndSingle true).arena, e.2.isObject = true ∧
    (e.2.named "b").length ≤ 1 ∧
    (∀ v, e.2.toJson.member? "b" = some v ↔
      ∃ p c, e.2.property? "b" = some p ∧ p.value? = some c ∧ c.toJson = v) ∧
    e.2.toJson.member? "a" = ((e.2.named "a").filterMap Node.value?).getLast?.map Node.toJson := by
  have hroot : (parse repeatedAndSingle true).arena[0]? = some (none, .object ⟨0, 0, 29⟩ [
      .property ⟨1, 1, 8⟩ (some 4) (.atom ⟨2, 1, 3⟩ (.string "a")) (.atom ⟨3, 5, 4⟩ .null),
      .property ⟨4, 10, 8⟩ (some 13) (.atom ⟨5, 10, 3⟩ (.string "a"))
        (.atom ⟨6, 14, 4⟩ (.boolean true)),
      .property ⟨7, 19, 9⟩ (some 22) (.atom ⟨8, 19, 3⟩ (.string "b"))
        (.atom ⟨9, 23, 5⟩ (.boolean false))]) := by cbv
  have he := List.mem_of_getElem? hroot
  have honce := property_views repeatedAndSingle true _ he rfl "b"
  have htwice := property_views repeatedAndSingle true _ he rfl "a"
  exact ⟨_, he, rfl, by decide +kernel, (honce.2 (by decide +kernel)).1, htwice.1⟩

end Literal

end AnnotatedJson
