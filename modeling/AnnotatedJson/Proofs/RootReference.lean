/-
  A schema whose root is pointed at a definition.

  The schema is read, gets its `$ref`, and is printed and read again.  This changes nothing else,
  but doubles may come back as their neighbours.

  * `Json.Produced.reread`: a value that was read is read again from its compact text, with its
    numbers as they are read then;
  * `Json.withMember`: members with a value under a name, in its old place or last;
  * `ofText?_pointAtDefinition`: what is read from a schema that was pointed at its definition;
  * `pointAtDefinition_sets_ref`: where all numbers are integers, only `$ref` changes.
-/
import Mathlib
import AnnotatedJson.Schema.Fetch
import AnnotatedJson.Proofs.PrintedDoubles

namespace AnnotatedJson

namespace Json

/-! ## Values that were read -/

section
variable {depth : Nat} {v : Json}

theorem heightItems_le {xs : List Json} (h : ∀ x ∈ xs, x.height ≤ depth) :
    heightItems xs ≤ depth := by
  induction xs with
  | nil => exact Nat.zero_le depth
  | cons x xs ih =>
    obtain ⟨hx, hxs⟩ := List.forall_mem_cons.1 h
    rw [heightItems]
    exact max_le hx (ih hxs)

theorem heightMembers_le {ms : List (String × Json)} (h : ∀ m ∈ ms, m.2.height ≤ depth) :
    heightMembers ms ≤ depth := by
  induction ms with
  | nil => exact Nat.zero_le depth
  | cons m ms ih =>
    obtain ⟨hm, hms⟩ := List.forall_mem_cons.1 h
    rw [heightMembers]
    exact max_le hm (ih hms)

theorem Produced.height_le (h : Produced depth v) : v.height ≤ depth := by
  induction h with
  | null | bool | string | number => exact Nat.zero_le _
  | array _ ih =>
    rw [height]
    exact Nat.succ_le_succ (heightItems_le ih)
  | object _ _ ih =>
    rw [height]
    exact Nat.succ_le_succ (heightMembers_le ih)

theorem Produced.stored (h : Produced depth v) {n : Number} (hn : .number n ∈ v.inner) :
    n.Stored := by
  induction h with
  | null | bool | string => simp [inner] at hn
  | number h =>
    rw [inner, List.mem_singleton] at hn
    cases hn
    exact number?_stored h
  | array _ ih =>
    rcases List.mem_cons.1 (inner.eq_5 _ ▸ hn) with hn | hn
    · cases hn
    · obtain ⟨x, hx, hnx⟩ := mem_innerItems hn
      exact ih x hx hnx
  | object _ _ ih =>
    rcases List.mem_cons.1 (inner.eq_6 _ ▸ hn) with hn | hn
    · cases hn
    · obtain ⟨m, hm, hnm⟩ := mem_innerMembers hn
      exact ih m hm hnm

/-- **A value that was read is read again from its text.** -/
theorem Produced.reread (h : Produced depth v) : read? depth (text v) = some v.reread := by
  refine read?_reread ?_ h.keyed h.height_le
  intro w hw
  cases w with
  | number n => exact legible_of_stored (h.stored hw)
  | null | bool | string | array | object => trivial

end

/-! ## Members -/

section
variable {name : String} {v : Json} {ms : List (String × Json)}

/-- Members with a value under a name: in its old place if the name is there, last otherwise. -/
def withMember (name : String) (v : Json) (ms : List (String × Json)) : List (String × Json) :=
  if name ∈ ms.map Prod.fst then ms.map fun m => if m.1 = name then (name, v) else m
  else ms ++ [(name, v)]

theorem insert_of_mem (hn : (ms.map (·.1)).Nodup) (h : name ∈ ms.map Prod.fst) :
    insert name v ms = ms.map fun m => if m.1 = name then (name, v) else m := by
  induction ms with
  | nil => cases h
  | cons m ms ih =>
    obtain ⟨k, w⟩ := m
    rw [List.map_cons, List.nodup_cons] at hn
    rw [insert, List.map_cons]
    by_cases hk : k = name
    · subst hk
      have hrest : ∀ m ∈ ms, (if m.1 = k then (k, v) else m) = m := by
        intro m hm
        exact if_neg fun heq : m.1 = k => hn.1 (List.mem_map.2 ⟨m, hm, heq⟩)
      rw [if_pos rfl, if_pos rfl, List.map_congr_left hrest, List.map_id']
    · have hmem : name ∈ ms.map Prod.fst := (List.mem_cons.1 h).resolve_left (Ne.symm hk)
      rw [if_neg hk, if_neg hk, ih hn.2 hmem]

theorem insert_eq_withMember (hn : (ms.map (·.1)).Nodup) :
    insert name v ms = withMember name v ms := by
  unfold withMember
  split
  next h => exact insert_of_mem hn h
  next h => exact Shorthand.insert_of_notMem h v

theorem insert_insert (name : String) (v : Json) (ms : List (String × Json)) :
    insert name v (insert name v ms) = insert name v ms := by
  induction ms with
  | nil => rw [insert, insert, if_pos rfl]
  | cons m ms ih =>
    obtain ⟨k, w⟩ := m
    rw [insert]
    by_cases hk : k = name
    · rw [if_pos hk, insert, if_pos hk]
    · rw [if_neg hk, insert, if_neg hk, ih]

theorem rereadMembers_insert (name : String) (s : String) (ms : List (String × Json)) :
    rereadMembers (insert name (.string s) ms) = insert name (.string s) (rereadMembers ms) := by
  induction ms with
  | nil => simp only [insert, rereadMembers, Json.reread]
  | cons m ms ih =>
    obtain ⟨k, w⟩ := m
    rw [insert, rereadMembers, insert]
    by_cases hk : k = name
    · rw [if_pos hk, if_pos hk, rereadMembers, Json.reread]
    · rw [if_neg hk, if_neg hk, rereadMembers, ih]

theorem names_rereadMembers (ms : List (String × Json)) :
    (rereadMembers ms).map (·.1) = ms.map (·.1) := by
  induction ms with
  | nil => rfl
  | cons m ms ih => rw [rereadMembers, List.map_cons, List.map_cons, ih]

/-- An object may get one more string. -/
theorem Produced.insert {depth : Nat} (h : Produced depth (.object ms)) (name s : String) :
    Produced depth (.object (insert name (.string s) ms)) := by
  cases h with
  | object hn h =>
    refine .object (nodup_insert name _ hn) fun m hm => ?_
    rcases mem_insert hm with rfl | hm
    · exact .string s
    · exact h m hm

end

end Json

/-! ## Schemas -/

section
variable {body : String} {ms : List (String × Json)}

theorem pointAtDefinition_object (h : Json.ofText? body.toList = some (.object ms)) :
    pointAtDefinition body =
      (Json.object (Json.insert "$ref" (.string rootDefinition) ms)).render := by
  rw [pointAtDefinition, h]

theorem pointAtDefinition_other (h : ∀ ms, Json.ofText? body.toList ≠ some (.object ms)) :
    pointAtDefinition body = body := by
  unfold pointAtDefinition
  split
  next ms hms => exact absurd hms (h ms)
  next => rfl

theorem nodup_of_ofText? (h : Json.ofText? body.toList = some (.object ms)) :
    (ms.map (·.1)).Nodup :=
  Json.read?_keyed h _ (Json.self_mem_inner _)

/-- **What is read from a schema that was pointed at its definition.** -/
theorem ofText?_pointAtDefinition (h : Json.ofText? body.toList = some (.object ms)) :
    Json.ofText? (pointAtDefinition body).toList =
      some (.object (Json.withMember "$ref" (.string rootDefinition) (Json.rereadMembers ms))) := by
  have hread : Json.ofText? (Json.object (Json.insert "$ref" (.string rootDefinition) ms)).text = _ :=
    ((Json.read?_produced h).insert "$ref" rootDefinition).reread
  have hnames : ((Json.rereadMembers ms).map (·.1)).Nodup := by
    rw [Json.names_rereadMembers]
    exact nodup_of_ofText? h
  rw [pointAtDefinition_object h, Json.render, String.toList_ofList, hread, Json.reread,
    Json.rereadMembers_insert, Json.insert_eq_withMember hnames]

/-- **Only `$ref` changes.**  Let all numbers of a body be integers of 64 bits.  If it is read as an
    object, then with its root pointed at the definition it is read as the same object with `$ref`
    set, in its old place or last; anything else is left as it is.  Doing it twice is doing it once. -/
theorem pointAtDefinition_sets_ref (body : String)
    (hwhole : ∀ v, Json.ofText? body.toList = some v → ∀ w ∈ v.inner, w.Whole) :
    (∀ ms, Json.ofText? body.toList = some (.object ms) →
      Json.ofText? (pointAtDefinition body).toList =
        some (.object (Json.withMember "$ref" (.string "#/definitions/SchemaObject") ms))) ∧
    ((∀ ms, Json.ofText? body.toList ≠ some (.object ms)) → pointAtDefinition body = body) ∧
    pointAtDefinition (pointAtDefinition body) = pointAtDefinition body := by
  have hobject : ∀ ms, Json.ofText? body.toList = some (.object ms) →
      Json.ofText? (pointAtDefinition body).toList =
        some (.object (Json.withMember "$ref" (.string rootDefinition) ms)) := by
    intro ms hms
    have hself := Json.reread_whole (hwhole _ hms)
    rw [Json.reread, Json.object.injEq] at hself
    rw [ofText?_pointAtDefinition hms, hself]
  refine ⟨hobject, pointAtDefinition_other, ?_⟩
  by_cases h : ∃ ms, Json.ofText? body.toList = some (.object ms)
  · obtain ⟨ms, hms⟩ := h
    rw [pointAtDefinition_object (hobject ms hms), pointAtDefinition_object hms,
      ← Json.insert_eq_withMember (nodup_of_ofText? hms), Json.insert_insert]
  · have hsame := pointAtDefinition_other (not_exists.1 h)
    rw [hsame, hsame]

/-- A schema with a member twice, a `$ref` between others, and the largest and the least number. -/
def nestedBody : String := String.ofList
  ('{' :: "\"a\":1,\"$ref\":0,\"b\":[-9223372036854775808,".toList ++
    '{' :: "\"\\n\":18446744073709551615".toList ++ '}' :: "],\"a\":\"\\u00e9\"".toList ++ ['}'])

theorem pointAtDefinition_sets_ref_nested :
    Json.ofText? (pointAtDefinition nestedBody).toList = some (.object
      [("a", .string "é"), ("$ref", .string "#/definitions/SchemaObject"),
        ("b", .array [.number (.int (-9223372036854775808)),
          .object [("\n", .number (.int 18446744073709551615))]])]) ∧
    pointAtDefinition (pointAtDefinition nestedBody) = pointAtDefinition nestedBody := by
  have hread : Json.ofText? nestedBody.toList = some (.object
      [("a", .string "é"), ("$ref", .number (.int 0)),
        ("b", .array [.number (.int (-9223372036854775808)),
          .object [("\n", .number (.int 18446744073709551615))]])]) := by
    cbv
  have hwhole : ∀ v, Json.ofText? nestedBody.toList = some v → ∀ w ∈ v.inner, w.Whole := by
    intro v hv
    rw [hread] at hv
    cases hv
    simp [Json.inner, Json.innerItems, Json.innerMembers, Json.Whole]
  obtain ⟨hobject, -, htwice⟩ := pointAtDefinition_sets_ref nestedBody hwhole
  exact ⟨hobject _ hread, htwice⟩

end

end AnnotatedJson
