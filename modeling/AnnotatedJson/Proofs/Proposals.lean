/-
  Proposals for keys.

  The keys proposed for an object are those that the schemas of the object name under `properties`,
  without the keys that are there already.

  * `AreKeys`: the proposals of some keys, in order;
  * `keyItems_areKeys`, `KeySite.items_areKeys`: one schema and all schemas of an object;
  * `Literal.complete_labels_nodup`: no two proposals have one label;
  * `Literal.Navigable.complete_key`, `Literal.Navigable.complete_object`: the cursor on a key and
    in an object;
  * `LiteralMode.proposals_exhaustive`: what the mode of annotated literals proposes.
-/
import Mathlib
import AnnotatedJson.Proofs.Answers
import AnnotatedJson.Proofs.Distinct
import AnnotatedJson.Proofs.KeySites

namespace AnnotatedJson

/-! ## Keys of schemas -/

/-- The keys that a schema names, in order. -/
def Schema.propertyNames (schema : Json) : List String :=
  (((schema.member? "properties").bind Json.asObject?).getD []).map Prod.fst

/-- The keys of an object besides that of one of its properties. -/
def Node.keysBeside (o : Node) (current : Option Node) : List String :=
  (o.children.filter fun p => some p.id ≠ current.map Node.id).filterMap Node.keyText?

/-- The proposals of some keys: each inserts the JSON text of its key, and a colon where one is
    missing. -/
structure AreKeys (range : Range) (colon : Bool) (keys : List String)
    (items : List CompletionItem) : Prop where
  labels : items.map CompletionItem.label = keys
  inserted : ∀ i ∈ items, i.textEdit =
    some (.edit ⟨range, (Json.string i.label).render ++ if colon then ": " else ""⟩)

section
variable {range : Range} {colon : Bool} {keys keys' : List String}
  {items items' : List CompletionItem}

theorem areKeys_nil : AreKeys range colon [] [] := ⟨rfl, by simp⟩

theorem AreKeys.append (h : AreKeys range colon keys items)
    (h' : AreKeys range colon keys' items') :
    AreKeys range colon (keys ++ keys') (items ++ items') := by
  refine ⟨by rw [List.map_append, h.labels, h'.labels], fun i hi => ?_⟩
  rcases List.mem_append.1 hi with hi | hi
  · exact h.inserted i hi
  · exact h'.inserted i hi

theorem areKeys_keyItem (key : String) (schema : Json) :
    AreKeys range colon [key] [Schema.keyItem key schema range colon] := by
  refine ⟨rfl, fun i hi => ?_⟩
  cases List.mem_singleton.1 hi
  cases colon with
  | false => simp [Schema.keyItem]
  | true => rfl

end

/-! ## Keys of several schemas -/

/-- The proposals after some keys were gone through, and what is seen then. -/
structure Walked (range : Range) (colon : Bool) (seen keys : List String)
    (found : List CompletionItem × List String) : Prop where
  items : AreKeys range colon (freshNames seen keys) found.1
  seen_iff : ∀ key, key ∈ found.2 ↔ key ∈ seen ++ keys

section
variable {range : Range} {colon : Bool} {seen keys keys' : List String}
  {found more : List CompletionItem × List String}

theorem walked_nil : Walked range colon seen [] ([], seen) := ⟨areKeys_nil, by simp⟩

theorem Walked.append (h : Walked range colon seen keys found)
    (h' : Walked range colon found.2 keys' more) :
    Walked range colon seen (keys ++ keys') (found.1 ++ more.1, more.2) := by
  refine ⟨?_, fun key => ?_⟩
  · rw [freshNames_append, ← freshNames_congr h.seen_iff]
    exact h.items.append h'.items
  · rw [h'.seen_iff, List.mem_append, h.seen_iff, ← List.append_assoc,
      List.mem_append (s := seen ++ _)]

theorem walked_seen {key : String} (h : key ∈ seen) : Walked range colon seen [key] ([], seen) := by
  refine ⟨?_, fun k => ?_⟩
  · rw [freshNames_cons_of_mem h]
    exact areKeys_nil
  · rw [List.mem_append, List.mem_singleton]
    exact ⟨.inl, fun hk => hk.elim id fun hk => hk ▸ h⟩

theorem walked_new {key : String} (h : key ∉ seen) (schema : Json) :
    Walked range colon seen [key] ([Schema.keyItem key schema range colon], seen ++ [key]) := by
  refine ⟨?_, fun k => Iff.rfl⟩
  rw [freshNames_cons_of_notMem h]
  exact areKeys_keyItem key schema

end

/-- By induction on the keys of the schema, from the last. -/
theorem keyItems_walked (root schema : Json) (range : Range) (colon : Bool) (seen : List String) :
    Walked range colon seen (Schema.propertyNames schema)
      (keyItems root schema range colon seen) := by
  unfold keyItems Schema.propertyNames
  generalize ((schema.member? "properties").bind Json.asObject?).getD [] = members
  induction members using List.reverseRecOn with
  | nil => exact walked_nil
  | append_singleton members member ih =>
    rw [List.foldl_concat, List.map_append, List.map_singleton]
    generalize List.foldl _ _ members = found at ih
    dsimp only
    by_cases h : member.1 ∈ found.2
    · rw [if_pos (by simpa using h)]
      simpa using ih.append (walked_seen h)
    · rw [if_neg (by simpa using h)]
      exact ih.append (walked_new h _)

/-- By induction on the schemas, from the last. -/
theorem KeySite.items_areKeys (site : KeySite) (d : Literal) (engine : Schema.Engine)
    (schema : Json) (range : Range) :
    AreKeys range site.addValue
      (freshNames (site.object.keysBeside site.current)
        ((d.schemasAlong engine schema (d.pathTo site.object)).flatMap Schema.propertyNames))
      (site.items d engine schema range) := by
  unfold KeySite.items
  refine Walked.items (?_ : Walked _ _ (site.object.keysBeside site.current) _ _)
  generalize d.schemasAlong engine schema (d.pathTo site.object) = schemas
  induction schemas using List.reverseRecOn with
  | nil => exact walked_nil
  | append_singleton schemas s ih =>
    rw [List.foldl_concat, List.flatMap_append, List.flatMap_singleton]
    exact ih.append (keyItems_walked schema s range site.addValue _)

namespace Literal

/-! ## Proposals at an offset -/

variable {d : Literal} {cs : Text} {offset : Nat} {n o p r : Node} (index : LineIndex)
  (engine : Schema.Engine) (schema : Json)

theorem valueItems_labels_nodup (d : Literal) (path : List PathStep) (range : Range) :
    ((d.valueItems engine schema path range).map CompletionItem.label).Nodup := by
  rw [valueItems, distinctItems_labels]
  exact freshNames_nodup _ _

/-- No two proposals have one label. -/
theorem complete_labels_nodup (d : Literal) (cs : Text) (offset : Nat) :
    ((d.complete cs index offset engine schema).map CompletionItem.label).Nodup := by
  unfold complete
  dsimp only
  split
  · exact valueItems_labels_nodup engine schema d _ _
  · split
    next site _ =>
      split
      · exact List.nodup_nil
      · rw [(site.items_areKeys d engine schema _).labels]
        exact freshNames_nodup _ _
    next =>
      split
      · exact valueItems_labels_nodup engine schema d _ _
      · exact List.nodup_nil

theorem complete_site {site : KeySite} (hn : d.completionNode? cs offset = some n)
    (hsite : d.keySite? n = some site) (hoffset : site.object.offset ≠ offset) :
    d.complete cs index offset engine schema =
      site.items d engine schema (index.rangeOf (overwritten (some n) cs offset)) := by
  unfold complete
  dsimp only
  rw [hn]
  dsimp only
  rw [hsite]
  exact if_neg hoffset

/-- The keys proposed with the cursor on the key of a property. -/
theorem Navigable.complete_key (h : d.Navigable) (hr : d.root = some r) (ho : r.Above o)
    (hobject : o.isObject = true) (hp : p ∈ o.children) (hk : p.key? = some n)
    (hn : d.completionNode? cs offset = some n) :
    AreKeys (index.rangeOf (overwritten (some n) cs offset)) p.value?.isNone
      (freshNames (o.keysBeside (some p))
        ((d.schemasAlong engine schema (d.pathTo o)).flatMap Schema.propertyNames))
      (d.complete cs index offset engine schema) := by
  obtain ⟨hsite, hlt⟩ := h.keySite?_key hr ho hobject hp hk hn
  rw [complete_site index engine schema hn hsite hlt.ne]
  exact KeySite.items_areKeys ⟨o, some p, p.value?.isNone⟩ d engine schema _

/-- The keys proposed in an object. -/
theorem Navigable.complete_object (h : d.Navigable) (hr : d.root = some r)
    (hobject : n.isObject = true) (hn : d.completionNode? cs offset = some n)
    (hoffset : n.offset ≠ offset) :
    AreKeys (index.rangeOf (overwritten (some n) cs offset)) true
      (freshNames (n.keysBeside none)
        ((d.schemasAlong engine schema (d.pathTo n)).flatMap Schema.propertyNames))
      (d.complete cs index offset engine schema) := by
  have hsite := h.keySite?_object hr (h.completionNode?_above hr hn) hobject
  rw [complete_site index engine schema hn hsite hoffset]
  exact KeySite.items_areKeys ⟨n, none, true⟩ d engine schema _

/-- Numbers tell the properties of an object apart. -/
theorem Navigable.mem_keysBeside (h : d.Navigable) (hr : d.root = some r) (ho : r.Above o)
    (hp : p ∈ o.children) {key : String} :
    key ∈ o.keysBeside (some p) ↔ ∃ q ∈ o.children, q ≠ p ∧ q.keyText? = some key := by
  have hid : ∀ q ∈ o.children, q.id ≠ p.id ↔ q ≠ p := by
    intro q hq
    refine not_congr ⟨(h.distinct hr).eq_of_id (ho.tail hq) (ho.tail hp), fun heq => heq ▸ rfl⟩
  simp only [Node.keysBeside, List.mem_filterMap, List.mem_filter]
  constructor
  · rintro ⟨q, ⟨hq, hne⟩, hkey⟩
    exact ⟨q, hq, (hid q hq).1 (by simpa using hne), hkey⟩
  · rintro ⟨q, hq, hne, hkey⟩
    exact ⟨q, ⟨hq, by simpa using (hid q hq).2 hne⟩, hkey⟩

theorem mem_keysBeside_none {key : String} :
    key ∈ o.keysBeside none ↔ ∃ q ∈ o.children, q.keyText? = some key := by
  simp [Node.keysBeside]

end Literal

/-- The proposals at an offset, where the cursor is on a key or in an object: the keys that the
    schemas of the object name and that no other property has. -/
structure Literal.ProposesKeys (d : Literal) (cs : Text) (index : LineIndex) (offset : Nat)
    (engine : Schema.Engine) (schema : Json) (items : List CompletionItem) : Prop where
  on_key : ∀ r o p n, d.root = some r → r.Above o → o.isObject = true → p ∈ o.children →
    p.key? = some n → d.completionNode? cs offset = some n →
      (∀ key, key ∈ o.keysBeside (some p) ↔ ∃ q ∈ o.children, q ≠ p ∧ q.keyText? = some key) ∧
      AreKeys (index.rangeOf (overwritten (some n) cs offset)) p.value?.isNone
        (freshNames (o.keysBeside (some p))
          ((d.schemasAlong engine schema (d.pathTo o)).flatMap Schema.propertyNames)) items
  in_object : ∀ n, d.completionNode? cs offset = some n → n.isObject = true → n.offset ≠ offset →
    (∀ key, key ∈ n.keysBeside none ↔ ∃ q ∈ n.children, q.keyText? = some key) ∧
    AreKeys (index.rangeOf (overwritten (some n) cs offset)) true
      (freshNames (n.keysBeside none)
        ((d.schemasAlong engine schema (d.pathTo n)).flatMap Schema.propertyNames)) items

theorem Literal.Repaired.proposesKeys {cs : Text} {d : Literal} (h : Repaired cs d)
    (index : LineIndex) (offset : Nat) (engine : Schema.Engine) (schema : Json) :
    d.ProposesKeys cs index offset engine schema (d.complete cs index offset engine schema) where
  on_key r o p n hr ho hobject hp hk hn :=
    ⟨fun _ => h.navigable.mem_keysBeside hr ho hp,
      h.navigable.complete_key index engine schema hr ho hobject hp hk hn⟩
  in_object n hn hobject hoffset := by
    obtain ⟨m, hm, -⟩ := Option.bind_eq_some_iff.1 hn
    obtain ⟨r, hr, -⟩ := Option.bind_eq_some_iff.1 hm
    exact ⟨fun _ => mem_keysBeside_none,
      h.navigable.complete_object index engine schema hr hobject hn hoffset⟩

/-! ## Proposals of the mode -/

theorem Region.prepare_repaired (r : Region) (d : Document) (l : LiteralState) :
    Literal.Repaired (r.prepare d l).document.text (r.prepare d l).literal :=
  .filtered (.filled r.corrections (.pointed _ (.parsed l.allowComments)))

namespace LiteralMode

theorem preparedAt?_repaired {d : Document} {p : Position} {w : Workspace} {r : PreparedRegion}
    (h : (preparedAt? d p w).1 = some r) : Literal.Repaired r.document.text r.literal := by
  rw [preparedAt?_eq] at h
  obtain ⟨i, -, h⟩ := Option.bind_eq_some_iff.1 h
  obtain ⟨region, -, rfl⟩ := Option.map_eq_some_iff.1 h
  exact region.prepare_repaired _ _

/-- Loading a schema leaves the engine as it is. -/
theorem schemaOf?_engine (literal : Literal) (w : Workspace) :
    (schemaOf? literal w).2.engine = w.engine := by
  unfold schemaOf?
  cases literal.schemaUri? <;> rfl

/-- Nothing is proposed outside of regions, in comments and without a schema. -/
theorem complete_eq (d : Document) (p : Position) (w : Workspace) :
    ∃ items, (complete d p w).1 = .ok { items := items.map (marked d.uri) } ∧
      (items.map CompletionItem.label).Nodup ∧
      ∀ r schema, (preparedAt? d p w).1 = some r →
        (schemaOf? r.literal (preparedAt? d p w).2).1 = some schema →
        items = if r.literal.isInComment (r.document.offsetAt p) then []
          else r.literal.complete r.document.text r.document.index (r.document.offsetAt p)
            w.engine schema := by
  have hengine : (preparedAt? d p w).2.engine = w.engine := rfl
  unfold complete
  rw [Action.lift_bind]
  revert hengine
  rcases preparedAt? d p w with ⟨_ | r, w'⟩ <;> intro hengine
  · exact ⟨[], rfl, List.nodup_nil, by simp⟩
  · dsimp only
    by_cases hcomment : r.literal.isInComment (r.document.offsetAt p) = true
    · rw [if_pos hcomment]
      refine ⟨[], rfl, List.nodup_nil, ?_⟩
      rintro _ schema ⟨⟩ -
      rw [if_pos hcomment]
    · rw [if_neg hcomment, Action.lift_bind]
      have hengine' := (schemaOf?_engine r.literal w').trans hengine
      rcases hschema : schemaOf? r.literal w' with ⟨_ | schema, w''⟩
      · refine ⟨[], rfl, List.nodup_nil, ?_⟩
        rintro _ schema ⟨⟩ hloaded
        rw [hschema] at hloaded
        cases hloaded
      · refine ⟨_, rfl, Literal.complete_labels_nodup r.document.index w''.engine schema r.literal
          r.document.text (r.document.offsetAt p), ?_⟩
        rintro _ schema' ⟨⟩ hloaded
        rw [hschema] at hloaded hengine'
        cases hloaded
        rw [if_neg hcomment, ← hengine']

/-- **Proposals are exhaustive and free of repeats.**  No two proposals have one label.  On a key
    and in an object, the proposals are the keys that some schema of the object names and no other
    property has, in the order of their first occurrences; each inserts the JSON text of its key,
    followed by a colon unless the cursor is on the key of a property with a value.  This is so for
    every literal that was parsed and repaired, and it is what the mode answers outside of comments. -/
theorem proposals_exhaustive :
    (∀ (d : Literal) (cs : Text) (index : LineIndex) (offset : Nat)
      (engine : Schema.Engine) (schema : Json),
      ((d.complete cs index offset engine schema).map CompletionItem.label).Nodup ∧
      (d.Repaired cs →
        d.ProposesKeys cs index offset engine schema (d.complete cs index offset engine schema))) ∧
    ∀ (d : Document) (p : Position) (w : Workspace), ∃ items,
      (Mode.literal.complete d p w).1 = .ok { items := items.map (marked d.uri) } ∧
      (items.map CompletionItem.label).Nodup ∧
      ∀ r schema, (preparedAt? d p w).1 = some r →
        (schemaOf? r.literal (preparedAt? d p w).2).1 = some schema →
        r.literal.Repaired r.document.text ∧
        items = if r.literal.isInComment (r.document.offsetAt p) then []
          else r.literal.complete r.document.text r.document.index (r.document.offsetAt p)
            w.engine schema := by
  refine ⟨fun d cs index offset engine schema => ?_, fun d p w => ?_⟩
  · exact ⟨Literal.complete_labels_nodup index engine schema d cs offset,
      fun h => h.proposesKeys index offset engine schema⟩
  · obtain ⟨items, hrun, hnodup, hitems⟩ := complete_eq d p w
    refine ⟨items, hrun, hnodup, fun r schema hr hschema => ?_⟩
    exact ⟨preparedAt?_repaired hr, hitems r schema hr hschema⟩

/-- An object with a property and a key alone. -/
def openObject : Text :=
  ['{', '"', 'a', '"', ':', 'n', 'u', 'l', 'l', ',', '"', 'b', '"', ' ', '}']

/-- Two schemas that both name the key `c`. -/
def overlappingSchema : Json := .object
  [("properties", .object [("b", .object []), ("a", .object []), ("c", .object [])]),
    ("allOf", .array [.object [("properties", .object [("c", .object []), ("d", .object [])])]])]

def boundKey : Node :=
  .property ⟨1, 1, 8⟩ (some 4) (.atom ⟨2, 1, 3⟩ (.string "a")) (.atom ⟨3, 5, 4⟩ .null)

def loneKey : Node := .hole ⟨4, 10, 3⟩ none (.atom ⟨5, 10, 3⟩ (.string "b"))

theorem proposals_exhaustive_openObject :
    (Literal.parse openObject true).root = some (.object ⟨0, 0, 15⟩ [boundKey, loneKey]) ∧
    ((Literal.parse openObject true).complete openObject (.ofText openObject) 2
      Pattern.engine overlappingSchema).map CompletionItem.label = ["a", "c", "d"] ∧
    ((Literal.parse openObject true).complete openObject (.ofText openObject) 11
      Pattern.engine overlappingSchema).map CompletionItem.label = ["b", "c", "d"] ∧
    ((Literal.parse openObject true).complete openObject (.ofText openObject) 14
      Pattern.engine overlappingSchema).map CompletionItem.label = ["c", "d"] := by
  have hroot : (Literal.parse openObject true).root =
      some (.object ⟨0, 0, 15⟩ [boundKey, loneKey]) := by
    cbv
  have hkeys (offset : Nat) := (proposals_exhaustive.1 (Literal.parse openObject true) openObject
    (.ofText openObject) offset Pattern.engine overlappingSchema).2 (.parsed true)
  refine ⟨hroot, ?_, ?_, ?_⟩
  · have hnode : (Literal.parse openObject true).completionNode? openObject 2 =
        some (.atom ⟨2, 1, 3⟩ (.string "a")) := by cbv
    obtain ⟨-, hitems⟩ :=
      (hkeys 2).on_key _ _ boundKey _ hroot .refl rfl (by simp [Node.children]) rfl hnode
    rw [hitems.labels]
    cbv
  · have hnode : (Literal.parse openObject true).completionNode? openObject 11 =
        some (.atom ⟨5, 10, 3⟩ (.string "b")) := by cbv
    obtain ⟨-, hitems⟩ :=
      (hkeys 11).on_key _ _ loneKey _ hroot .refl rfl (by simp [Node.children]) rfl hnode
    rw [hitems.labels]
    cbv
  · have hnode : (Literal.parse openObject true).completionNode? openObject 14 =
        some (.object ⟨0, 0, 15⟩ [boundKey, loneKey]) := by cbv
    obtain ⟨-, hitems⟩ := (hkeys 14).in_object _ hnode rfl (by decide)
    rw [hitems.labels]
    cbv

end LiteralMode

end AnnotatedJson
