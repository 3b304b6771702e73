/-
  Equality of JSON values.

  The order of members does not count, so equality is a comparison, and that it is an equivalence
  holds for the values whose objects name no member twice.

  * `Json.same_object_iff`: equal objects have equal members under the same names;
  * `Json.same_trans`, `Json.same_symm`: equality is an equivalence;
  * `Json.exists_member?_of_same`: equal values have equal members;
  * `Node.toJson_keyed`: the value of a node names no member twice.
-/
import Mathlib
import AnnotatedJson.Proofs.Paths
import AnnotatedJson.Proofs.Places

namespace AnnotatedJson

theorem Number.same_trans {a b c : Number} (h : a.same b = true) (h' : b.same c = true) :
    a.same c = true := by
  cases a <;> cases b <;> cases c <;> simp only [Number.same, Binary64.same, Bool.or_eq_true,
    Bool.and_eq_true, beq_iff_eq, reduceCtorEq] at h h' ⊢ <;> grind

theorem Number.same_symm {a b : Number} (h : a.same b = true) : b.same a = true := by
  cases a <;> cases b <;> simp only [Number.same, Binary64.same, Bool.or_eq_true,
    Bool.and_eq_true, beq_iff_eq, reduceCtorEq] at h ⊢ <;> grind

namespace Json

/-! ## Induction over a value -/

/-- The items of an array, or the values of the members of an object. -/
def parts : Json → List Json
  | .array xs => xs
  | .object ms => ms.map (·.2)
  | _ => []

theorem sizeOf_lt_of_mem_parts {v w : Json} (h : w ∈ v.parts) : sizeOf w < sizeOf v := by
  cases v with
  | array xs =>
    have := List.sizeOf_lt_of_mem (show w ∈ xs from h)
    simp only [array.sizeOf_spec]
    omega
  | object ms =>
    obtain ⟨⟨k, w'⟩, hm, rfl⟩ := List.mem_map.1 h
    have hsize := List.sizeOf_lt_of_mem hm
    simp only [object.sizeOf_spec, Prod.mk.sizeOf_spec] at hsize ⊢
    omega
  | null | bool | number | string => cases h

theorem induction_on {P : Json → Prop} (v : Json) (h : ∀ v : Json, (∀ w ∈ v.parts, P w) → P v) : P v :=
  h v fun w hw =>
    have := sizeOf_lt_of_mem_parts hw
    induction_on w h
termination_by sizeOf v

/-! ## Equal values -/

variable {u v w : Json}

theorem sameItems_iff {xs ys : List Json} : sameItems xs ys = true ↔ xs.length = ys.length ∧
    ∀ (i : Nat) x, xs[i]? = some x → ∃ y, ys[i]? = some y ∧ same x y = true := by
  induction xs generalizing ys with
  | nil => cases ys <;> simp [sameItems]
  | cons x xs ih =>
    cases ys with
    | nil => simp [sameItems]
    | cons y ys =>
      rw [sameItems, Bool.and_eq_true, ih, List.length_cons, List.length_cons, Nat.add_right_cancel_iff]
      constructor
      · rintro ⟨hxy, hlen, hitems⟩
        refine ⟨hlen, fun i z hz => ?_⟩
        cases i with
        | zero => exact ⟨y, rfl, Option.some.inj hz ▸ hxy⟩
        | succ i => exact hitems i z hz
      · rintro ⟨hlen, hitems⟩
        obtain ⟨y', hy', hxy⟩ := hitems 0 x rfl
        exact ⟨Option.some.inj hy' ▸ hxy, hlen, fun i z hz => hitems (i + 1) z hz⟩

theorem sameMembers_iff {ms ns : List (String × Json)} :
    sameMembers ms ns = true ↔ ∀ m ∈ ms, ∃ w, lookup m.1 ns = some w ∧ same m.2 w = true := by
  induction ms with
  | nil => simp [sameMembers]
  | cons m ms ih =>
    obtain ⟨k, v⟩ := m
    rw [sameMembers, Bool.and_eq_true, ih, List.forall_mem_cons]
    cases lookup k ns <;> simp

/-- Equal arrays have equal items in the same places, and no others. -/
theorem same_array_iff {xs : List Json} : same (.array xs) v = true ↔
    ∃ ys, v = .array ys ∧ xs.length = ys.length ∧
      ∀ (i : Nat) x, xs[i]? = some x → ∃ y, ys[i]? = some y ∧ same x y = true := by
  cases v <;> simp [same, sameItems_iff]

/-- Equal objects have equal members under the same names, and no others. -/
theorem same_object_iff {ms : List (String × Json)} : same (.object ms) v = true ↔
    ∃ ns, v = .object ns ∧ ms.length = ns.length ∧
      ∀ m ∈ ms, ∃ w, lookup m.1 ns = some w ∧ same m.2 w = true := by
  cases v <;> simp [same, sameMembers_iff]

theorem same_number_iff {a : Number} : same (.number a) v = true ↔
    ∃ b, v = .number b ∧ a.same b = true := by
  cases v <;> simp [same]

theorem same_null_iff : same .null v = true ↔ .null = v := by
  cases v <;> simp [same]

theorem same_bool_iff {b : Bool} : same (.bool b) v = true ↔ .bool b = v := by
  cases v <;> simp [same]

theorem same_string_iff {s : String} : same (.string s) v = true ↔ .string s = v := by
  cases v <;> simp [same]

/-- **Equality is transitive.** -/
theorem same_trans (h : same u v = true) (h' : same v w = true) : same u w = true := by
  induction u using induction_on generalizing v w with
  | h u ih =>
    cases u with
    | null => rwa [← same_null_iff.1 h] at h'
    | bool b => rwa [← same_bool_iff.1 h] at h'
    | string s => rwa [← same_string_iff.1 h] at h'
    | number a =>
      obtain ⟨b, rfl, hab⟩ := same_number_iff.1 h
      obtain ⟨c, rfl, hbc⟩ := same_number_iff.1 h'
      exact same_number_iff.2 ⟨c, rfl, Number.same_trans hab hbc⟩
    | array xs =>
      obtain ⟨ys, rfl, hxy, hitems⟩ := same_array_iff.1 h
      obtain ⟨zs, rfl, hyz, hitems'⟩ := same_array_iff.1 h'
      refine same_array_iff.2 ⟨zs, rfl, hxy.trans hyz, fun i x hx => ?_⟩
      obtain ⟨y, hy, hsame⟩ := hitems i x hx
      obtain ⟨z, hz, hsame'⟩ := hitems' i y hy
      exact ⟨z, hz, ih x (List.mem_of_getElem? hx) hsame hsame'⟩
    | object ms =>
      obtain ⟨ns, rfl, hmn, hmembers⟩ := same_object_iff.1 h
      obtain ⟨os, rfl, hno, hmembers'⟩ := same_object_iff.1 h'
      refine same_object_iff.2 ⟨os, rfl, hmn.trans hno, fun m hm => ?_⟩
      obtain ⟨y, hy, hsame⟩ := hmembers m hm
      obtain ⟨z, hz, hsame'⟩ := hmembers' (m.1, y) (mem_of_lookup hy)
      exact ⟨z, hz, ih m.2 (List.mem_map_of_mem hm) hsame hsame'⟩

/-! ## Values that name no member twice -/

theorem Keyed.part (h : v.Keyed) (hw : w ∈ v.parts) : w.Keyed := by
  intro x hx
  refine h x ?_
  cases v with
  | array xs => exact List.mem_cons_of_mem _ (inner_subset_innerItems hw hx)
  | object ms =>
    obtain ⟨⟨k, w'⟩, hm, rfl⟩ := List.mem_map.1 hw
    exact List.mem_cons_of_mem _ (inner_subset_innerMembers hm hx)
  | null | bool | number | string => cases hw

/-- Among equal objects each member on the right has its equal on the left: as many names that differ
    leave no room for another. -/
theorem exists_lookup_of_same {ms ns : List (String × Json)} (hms : (ms.map (·.1)).Nodup)
    (hns : (ns.map (·.1)).Nodup) (hlen : ms.length = ns.length)
    (hmembers : ∀ m ∈ ms, ∃ w, lookup m.1 ns = some w ∧ same m.2 w = true) :
    ∀ n ∈ ns, ∃ v, lookup n.1 ms = some v ∧ same v n.2 = true := by
  intro n hn
  have hsubset : ms.map (·.1) ⊆ ns.map (·.1) := by
    intro k hk
    obtain ⟨m, hm, rfl⟩ := List.mem_map.1 hk
    obtain ⟨w, hw, -⟩ := hmembers m hm
    exact List.mem_map_of_mem (f := (·.1)) (mem_of_lookup hw)
  have hperm := (hms.subperm hsubset).perm_of_length_le (by simp [hlen])
  obtain ⟨m, hm, hname⟩ := List.mem_map.1 (hperm.mem_iff.2 (List.mem_map_of_mem hn))
  obtain ⟨w, hw, hsame⟩ := hmembers m hm
  have hwn : lookup n.1 ns = some n.2 := lookup_of_mem hns hn
  rw [hname, hwn] at hw
  rw [← Option.some.inj hw] at hsame
  exact ⟨m.2, hname ▸ lookup_of_mem hms hm, hsame⟩

/-- **Equality is symmetric.** -/
theorem same_symm (hu : u.Keyed) (hv : v.Keyed) (h : same u v = true) : same v u = true := by
  induction u using induction_on generalizing v with
  | h u ih =>
    cases u with
    | null =>
      obtain rfl := same_null_iff.1 h
      exact h
    | bool b =>
      obtain rfl := same_bool_iff.1 h
      exact h
    | string s =>
      obtain rfl := same_string_iff.1 h
      exact h
    | number a =>
      obtain ⟨b, rfl, hab⟩ := same_number_iff.1 h
      exact same_number_iff.2 ⟨a, rfl, Number.same_symm hab⟩
    | array xs =>
      obtain ⟨ys, rfl, hlen, hitems⟩ := same_array_iff.1 h
      refine same_array_iff.2 ⟨xs, rfl, hlen.symm, fun i y hy => ?_⟩
      obtain ⟨hi, -⟩ := List.getElem?_eq_some_iff.1 hy
      have hx : xs[i]? = some xs[i] := List.getElem?_eq_getElem (hlen ▸ hi)
      obtain ⟨y', hy', hsame⟩ := hitems i _ hx
      obtain rfl := Option.some.inj (hy.symm.trans hy')
      have hmem := List.mem_of_getElem? hx
      exact ⟨_, hx, ih _ hmem (hu.part hmem) (hv.part (List.mem_of_getElem? hy)) hsame⟩
    | object ms =>
      obtain ⟨ns, rfl, hlen, hmembers⟩ := same_object_iff.1 h
      refine same_object_iff.2 ⟨ms, rfl, hlen.symm, fun n hn => ?_⟩
      obtain ⟨w, hw, hsame⟩ := exists_lookup_of_same (hu _ (self_mem_inner _))
        (hv _ (self_mem_inner _)) hlen hmembers n hn
      have hmem : w ∈ (Json.object ms).parts := List.mem_map_of_mem (mem_of_lookup hw)
      exact ⟨w, hw, ih w hmem (hu.part hmem) (hv.part (List.mem_map_of_mem hn)) hsame⟩

/-- A value equals both or none of two equal values. -/
theorem same_congr (hu : u.Keyed) (hv : v.Keyed) (h : same u v = true) (w : Json) :
    same w u = same w v :=
  Bool.eq_iff_iff.2 ⟨fun hw => same_trans hw h, fun hw => same_trans hw (same_symm hu hv h)⟩

theorem Keyed.member? (h : v.Keyed) {name : String} (hw : v.member? name = some w) : w.Keyed :=
  fun x hx => h x (inner_subset_of_member? hw hx)

/-- Equal values have equal members. -/
theorem exists_member?_of_same (h : same u v = true) {name : String} {x : Json}
    (hx : u.member? name = some x) : ∃ y, v.member? name = some y ∧ same x y = true := by
  cases u with
  | object ms =>
    obtain ⟨ns, rfl, -, hmembers⟩ := same_object_iff.1 h
    exact hmembers (name, x) (mem_of_lookup hx)
  | null | bool | number | string | array => cases hx

end Json

/-! ## Values of nodes -/

namespace Node

/-- The value of a number is a number, or nothing. -/
theorem numberJson_cases (x : Binary64) (integral : Bool) :
    numberJson x integral = .null ∨ ∃ k, numberJson x integral = .number k := by
  unfold numberJson
  split
  · split <;> exact .inr ⟨_, rfl⟩
  · split
    · exact .inr ⟨_, rfl⟩
    · exact .inl rfl

theorem atomJson_keyed (a : Atom) : (atomJson a).Keyed := by
  cases a with
  | number x integral =>
    rw [atomJson]
    rcases numberJson_cases x integral with h | ⟨k, h⟩ <;> rw [h] <;> exact Json.keyed_of_atomic rfl rfl
  | null | boolean | string => exact Json.keyed_of_atomic rfl rfl

theorem membersJson_keyed {ns : List Node} (h : ∀ n ∈ ns, n.toJson.Keyed)
    {seen : List (String × Json)} (hseen : Json.KeyedMembers seen) :
    Json.KeyedMembers (membersJson seen ns) := by
  induction ns generalizing seen with
  | nil => rwa [membersJson]
  | cons n ns ih =>
    obtain ⟨hn, hns⟩ := List.forall_mem_cons.1 h
    cases n with
    | property mark colon key value =>
      rw [membersJson]
      refine ih hns (hseen.insert _ ?_)
      rwa [toJson] at hn
    | atom | array | object | hole =>
      rw [membersJson]
      · exact ih hns hseen
      · simp

/-- **The value of a node names no member twice.** -/
theorem toJson_keyed (n : Node) : n.toJson.Keyed := by
  induction n using induction_on with
  | h n ih =>
    cases n with
    | atom mark a => rw [toJson]; exact atomJson_keyed a
    | array mark items =>
      rw [toJson, itemsJson_eq_map]
      exact Json.keyed_array (List.forall_mem_map.2 ih)
    | object mark properties =>
      rw [toJson]
      exact (membersJson_keyed ih ⟨by simp, by simp⟩).object
    | property mark colon key value =>
      rw [toJson]
      exact ih value (by simp [children])
    | hole mark colon key => rw [toJson]; exact Json.keyed_of_atomic rfl rfl

end Node

end AnnotatedJson
