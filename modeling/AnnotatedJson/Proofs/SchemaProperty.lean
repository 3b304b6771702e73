/-
  A schema put in front of a literal.

  The property `$schema` has no extent, so no offset leads to it; it is numbered after all other nodes,
  and it is the first member of the value.

  * `Literal.LacksSchema`: the root is an object without a `$schema`, and `Literal.insertSchema_eq`:
    what is put in then;
  * `Node.deepest_pointed`, `Node.pathTo?_pointed`, `Node.toJson_pointed`: the nodes found by
    offset, the paths and the value of an object with a schema in front;
  * `Node.Lies`, `Literal.Sound`: the tree invariant for nodes that may be empty;
  * `Literal.Pointed`: what becomes of a literal, and `Literal.insertSchema_pointed`: this is what does.
-/
import Mathlib
import AnnotatedJson.Proofs.Paths

namespace AnnotatedJson

namespace Node

open Literal

/-! ## Objects with a schema in front -/

section
variable (m : Mark) (ps : List Node) (k : Nat) (uri : String)

/-- An object with a schema in front. -/
def pointed : Node := object m (schemaProperty k m.offset uri :: ps)

theorem ids_schemaProperty (offset : Nat) : (schemaProperty k offset uri).ids = [k, k + 1, k + 2] := by
  simp [schemaProperty, ids_eq, children, id, mark]

theorem deepest_schemaProperty (offset o : Nat) (right : Bool) :
    (schemaProperty k offset uri).deepest o right = none := by
  rw [deepest_eq_none_iff]
  simp [schemaProperty, mark, Mark.covers]

/-- The search passes over a schema that is put in front. -/
theorem deepestOf_pointed {o : Nat} (h : m.offset ≤ o) (right : Bool) :
    deepestOf o right (schemaProperty k m.offset uri :: ps) = deepestOf o right ps := by
  have hnot : ¬ o < (schemaProperty k m.offset uri).offset := Nat.not_lt.2 h
  rw [deepestOf, if_neg hnot, deepest_schemaProperty]

theorem offset_le_of_covers {n : Node} {o : Nat} {right : Bool} (h : n.mark.covers o right = true) :
    n.offset ≤ o := by
  cases right with
  | false => exact (covers_false.1 h).1
  | true => exact (covers_true.1 h).2.1

/-- **The node at an offset is the same one.** -/
theorem deepest_pointed (o : Nat) (right : Bool) :
    ((pointed m ps k uri).deepest o right).map id = ((object m ps).deepest o right).map id := by
  have hpointed : (pointed m ps k uri).deepest o right = if m.covers o right then
      some ((deepestOf o right (schemaProperty k m.offset uri :: ps)).getD (pointed m ps k uri))
      else none := deepest_eq o right _
  have hobject : (object m ps).deepest o right =
      if m.covers o right then some ((deepestOf o right ps).getD (object m ps)) else none :=
    deepest_eq o right _
  rw [hpointed, hobject]
  by_cases hcov : m.covers o right = true
  · have hle : m.offset ≤ o := offset_le_of_covers (n := object m ps) hcov
    rw [if_pos hcov, if_pos hcov, deepestOf_pointed m ps k uri hle]
    cases deepestOf o right ps <;> rfl
  · rw [if_neg hcov, if_neg hcov]

variable {m ps k uri}

/-- **The path to a node of the object is the same.** -/
theorem pathTo?_pointed {i : Nat} (h : i < k) :
    (pointed m ps k uri).pathTo? i = (object m ps).pathTo? i := by
  have hnone : (schemaProperty k m.offset uri).pathTo? i = none := by
    apply pathTo?_eq_none
    rw [ids_schemaProperty]
    simp only [List.mem_cons, List.not_mem_nil, or_false]
    omega
  rw [pointed, pathTo?, pathTo?, memberPath?, hnone]

/-- A member that no property replaces stays in front. -/
theorem membersJson_cons {name : String} (hname : name ≠ "") {v : Json} {ns : List Node}
    (h : ∀ n ∈ ns, n.keyText? ≠ some name) (seen : List (String × Json)) :
    membersJson ((name, v) :: seen) ns = (name, v) :: membersJson seen ns := by
  induction ns generalizing seen with
  | nil => simp only [membersJson]
  | cons n ns ih =>
    obtain ⟨hn, hns⟩ := List.forall_mem_cons.1 h
    cases n with
    | property mark colon key value =>
      have hkey : name ≠ key.text?.getD "" := by
        cases htext : key.text? with
        | none => exact hname
        | some s =>
          rintro rfl
          exact hn htext
      rw [membersJson, membersJson, Json.insert, if_neg hkey, ih hns]
    | atom | array | object | hole => simp only [membersJson, ih hns]

/-- **The schema is the first member of the value.** -/
theorem toJson_pointed (h : ∀ p ∈ ps, p.keyText? ≠ some schemaKey) :
    ∃ ms, (object m ps).toJson = .object ms ∧
      (pointed m ps k uri).toJson = .object ((schemaKey, .string uri) :: ms) := by
  refine ⟨membersJson [] ps, by rw [toJson], ?_⟩
  have hput : Json.insert schemaKey (.string uri) [] = [(schemaKey, .string uri)] := rfl
  rw [pointed, toJson, schemaProperty, membersJson]
  simp only [text?, Option.getD_some, toJson, atomJson, hput]
  rw [membersJson_cons (by decide) h]

theorem listing_pointed : (pointed m ps k uri).listing none =
    (none, pointed m ps k uri) ::
      ((schemaProperty k m.offset uri).listing (some m.id) ++ listingOf (some m.id) ps) := by
  rw [listing_eq, pointed, children, listingOf_cons]
  rfl

/-- The nodes of the object but the object itself are those of the tree. -/
theorem mem_listing_pointed {e : Option Nat × Node} : e ∈ (pointed m ps k uri).listing none ↔
    e = (none, pointed m ps k uri) ∨ e ∈ (schemaProperty k m.offset uri).listing (some m.id) ∨
      e ∈ listingOf (some m.id) ps := by
  rw [listing_pointed, List.mem_cons, List.mem_append]

theorem ids_pointed_perm : (pointed m ps k uri).ids.Perm ((object m ps).ids ++ [k, k + 1, k + 2]) := by
  rw [ids_eq, ids_eq (object m ps), pointed, children, List.flatMap_cons, ids_schemaProperty]
  exact List.perm_append_comm.cons _

/-- The numbers of the new nodes follow those that were taken. -/
theorem ids_pointed_range (h : (object m ps).ids.Perm (List.range k)) :
    (pointed m ps k uri).ids.Perm (List.range (k + 3)) := by
  have hrange : List.range (k + 3) = List.range k ++ [k, k + 1, k + 2] := by simp [List.range_succ]
  rw [hrange]
  exact ids_pointed_perm.trans (h.append_right _)

end

/-! ## Nodes that may be empty -/

/-- A node that lies in a text, with its children in it, one after the other. -/
structure Lies (cs : Text) (n : Node) : Prop where
  start_boundary : Text.isBoundary cs n.offset = true
  stop_boundary : Text.isBoundary cs n.stop = true
  within : n.stop ≤ Text.bytes cs
  nested : ∀ c ∈ n.children, n.offset ≤ c.offset ∧ c.stop ≤ n.stop
  ordered : n.children.Pairwise fun a b => a.stop ≤ b.offset
  key_string : ∀ k ∈ n.key?, ∃ m s, k = .atom m (.string s)

variable {cs : Text} {m : Mark} {ps : List Node} {k : Nat} {uri : String}

theorem Fits.lies {n : Node} (h : n.Fits cs) : n.Lies cs :=
  ⟨h.start_boundary, h.stop_boundary, h.within, h.nested, h.ordered, h.key_string⟩

/-- A schema that is put in lies at the start of the object. -/
theorem lies_pointed (h : (object m ps).Lies cs) : (pointed m ps k uri).Lies cs := by
  refine ⟨h.start_boundary, h.stop_boundary, h.within, ?_, ?_, h.key_string⟩
  · exact List.forall_mem_cons.2 ⟨⟨le_rfl, Nat.le_add_right m.offset m.length⟩, h.nested⟩
  · exact List.pairwise_cons.2 ⟨fun c hc => (h.nested c hc).1, h.ordered⟩

theorem lies_schemaProperty {start : Nat} (hb : Text.isBoundary cs start = true)
    (parent : Option Nat) : ∀ e ∈ (schemaProperty k start uri).listing parent,
      e.2.Lies cs ∧ k ≤ e.2.id ∧ e.2.mark.length = 0 ∧ e.2.offset = start := by
  have hle := Text.isBoundary_le hb
  simp only [schemaProperty, listing, List.mem_cons, List.cons_append, List.nil_append,
    List.not_mem_nil, or_false]
  rintro e (rfl | rfl | rfl)
  all_goals
    refine ⟨⟨hb, hb, hle, ?_, ?_, ?_⟩, ?_, rfl, rfl⟩ <;>
      simp [children, key?, id, offset, stop, mark, Mark.stop]

end Node

namespace Literal

/-! ## Literals with a schema in front -/

/-- The root is an object without a schema. -/
def LacksSchema (d : Literal) : Prop :=
  ∃ r ∈ d.root, r.isObject = true ∧ ∀ p ∈ r.children, p.keyText? ≠ some schemaKey

instance : DecidablePred LacksSchema := fun d => inferInstanceAs (Decidable (∃ r ∈ d.root, _))

variable {d : Literal} {m : Mark} {ps : List Node} {cs : Text}

theorem LacksSchema.root (h : d.LacksSchema) :
    ∃ m ps, d.root = some (.object m ps) ∧ ∀ p ∈ ps, p.keyText? ≠ some schemaKey := by
  obtain ⟨r, hr, hobject, hps⟩ := h
  cases r with
  | object m ps => exact ⟨m, ps, hr, hps⟩
  | atom | array | property | hole => cases hobject

/-- **A schema is put in where there is none.** -/
theorem insertSchema_eq (hroot : d.root = some (.object m ps))
    (hps : ∀ p ∈ ps, p.keyText? ≠ some schemaKey) (uri : String) :
    d.insertSchema uri =
      (true, { d with root := some (.pointed m ps d.count uri), count := d.count + 3 }) := by
  have hnone : (Node.object m ps).property? schemaKey = none := by
    rw [Node.property?, List.find?_eq_none]
    simpa using hps
  rw [insertSchema, hroot]
  simp [hnone, Node.pointed]

/-- **A schema is not put in where there is one, or no object.** -/
theorem insertSchema_eq_self (h : ¬ d.LacksSchema) (uri : String) :
    d.insertSchema uri = (false, d) := by
  unfold insertSchema
  split
  next m ps hroot =>
    have hsome : ((Node.object m ps).property? schemaKey).isSome = true := by
      by_contra hnone
      rw [Node.property?, List.find?_isSome] at hnone
      refine h ⟨_, hroot, rfl, fun p hp heq => hnone ⟨p, hp, by simpa using heq⟩⟩
    rw [if_pos hsome]
  next => rfl

/-- A tree whose nodes may be empty, and numbered in any order. -/
structure Sound (cs : Text) (d : Literal) : Prop where
  root : ∀ r ∈ d.root, r.id = 0 ∧ (none, r) ∈ d.arena
  numbered : (d.arena.map (·.2.id)).Perm (List.range d.count)
  /-- Every node but the root is listed once, under its recorded parent and nowhere else. -/
  owned : ∀ e ∈ d.arena, e.2.id ≠ 0 → ∃ o ∈ d.arena, e.1 = some o.2.id ∧ o.2.id < e.2.id ∧
    (o.2.children.map Node.id).count e.2.id = 1 ∧
    ∀ o' ∈ d.arena, e.2.id ∈ o'.2.children.map Node.id → o' = o
  lies : ∀ e ∈ d.arena, e.2.Lies cs

/-- The literal `d'` is `d` with a schema in front. -/
structure Pointed (cs : Text) (uri : String) (d d' : Literal) : Prop where
  nodeAt : ∀ o right, (d'.nodeAt? o right).map Node.id = (d.nodeAt? o right).map Node.id
  /-- Every node but the root is there as it was, with the same parent. -/
  kept : ∀ e ∈ d.arena, e.2.id ≠ 0 → e ∈ d'.arena ∧ d'.find? e.2.id = some e.2
  path : ∀ e ∈ d.arena, d'.pathTo e.2 = d.pathTo e.2
  sound : d'.Sound cs
  count : d'.count = d.count + 3
  /-- The nodes that were not there before, and only they, are empty; they are at the start of the
      root. -/
  empty : ∀ e ∈ d'.arena, e.2.id < d.count ∧ 0 < e.2.mark.length ∨
    d.count ≤ e.2.id ∧ e.2.mark.length = 0 ∧ ∃ r ∈ d.root, e.2.offset = r.offset
  errors : d'.errors = d.errors
  comments : d'.comments = d.comments
  value : ∃ ms, d.toJson? = some (.object ms) ∧
    d'.toJson? = some (.object ((schemaKey, .string uri) :: ms))
  /-- No other schema can be put in. -/
  once : ∀ uri', d'.insertSchema uri' = (false, d')

theorem not_lacksSchema_pointed {k count : Nat} {uri : String} {errors comments} :
    ¬ (⟨some (.pointed m ps k uri), count, errors, comments⟩ : Literal).LacksSchema := by
  rintro ⟨r, hr, -, hps⟩
  cases hr
  exact hps _ List.mem_cons_self rfl

theorem id_lt_count (hids : d.arena.map (·.2.id) = List.range d.count) {e : Option Nat × Node}
    (he : e ∈ d.arena) : e.2.id < d.count := by
  have hmem : e.2.id ∈ d.arena.map (·.2.id) := List.mem_map_of_mem he
  rwa [hids, List.mem_range] at hmem

section
variable (hroot : d.root = some (.object m ps))

include hroot

theorem arena_object : d.arena = (none, .object m ps) :: Node.listingOf (some m.id) ps := by
  rw [arena, hroot, Option.map_some, Option.getD_some, Node.listing_eq]
  rfl

variable (hids : d.arena.map (·.2.id) = List.range d.count)

include hids

theorem root_id : m.id = 0 := by
  have hhead := congrArg List.head? hids
  rw [arena_object hroot, List.map_cons, List.head?_cons, List.head?_range] at hhead
  split at hhead
  · cases hhead
  · exact Option.some.inj hhead

theorem numbered_pointed (uri : String) :
    (Node.pointed m ps d.count uri).ids.Perm (List.range (d.count + 3)) := by
  have hobject : (Node.object m ps).ids = List.range d.count := by
    rw [Node.ids, Node.listing_eq, ← hids, arena_object hroot]
    rfl
  exact Node.ids_pointed_range (.of_eq hobject)

/-- Parents are numbered before their children. -/
theorem id_lt_of_child_pointed {uri : String} {o : Option Nat × Node}
    (ho : o ∈ (Node.pointed m ps d.count uri).listing none) {c : Node} (hc : c ∈ o.2.children) :
    o.2.id < c.id := by
  have hsorted : (((Node.object m ps).listing none).map (·.2.id)).Pairwise (· < ·) := by
    rw [Node.listing_eq]
    have h := hids ▸ List.pairwise_lt_range
    rwa [arena_object hroot] at h
  have hobject : (none, Node.object m ps) ∈ d.arena := by
    rw [arena_object hroot]
    exact List.mem_cons_self
  rcases Node.mem_listing_pointed.1 ho with rfl | ho | ho
  · rcases List.mem_cons.1 hc with rfl | hc
    · have hlt : m.id < d.count := id_lt_count hids hobject
      exact hlt
    · exact Node.id_lt_of_child hsorted (Node.mem_listing_self none _) hc
  · simp only [schemaProperty, Node.listing, List.mem_cons, List.cons_append, List.nil_append,
      List.not_mem_nil, or_false] at ho
    rcases ho with rfl | rfl | rfl
    · simp only [Node.children, List.mem_cons, List.not_mem_nil, or_false] at hc
      rcases hc with rfl | rfl <;> simp [Node.id, Node.mark]
    all_goals cases hc
  · refine Node.id_lt_of_child hsorted ?_ hc
    rw [Node.listing_eq]
    exact List.mem_cons_of_mem _ ho

/-- **The tree with a schema in front is sound.** -/
theorem sound_pointed (hfits : ∀ e ∈ d.arena, e.2.Fits cs) (uri : String) :
    Sound cs { d with root := some (.pointed m ps d.count uri), count := d.count + 3 } := by
  have hperm := numbered_pointed hroot hids uri
  have hobject : (Node.object m ps).Fits cs := hfits (none, _) (by simp [arena_object hroot])
  refine ⟨?_, hperm, ?_, ?_⟩
  · rintro r ⟨⟩
    exact ⟨root_id hroot hids, Node.mem_listing_self none _⟩
  · intro e he hne
    have hne' : e ≠ (none, Node.pointed m ps d.count uri) := by
      rintro rfl
      exact hne (root_id hroot hids)
    obtain ⟨o, ho, hparent, hchild, hone⟩ :=
      Node.exists_one_owner (hperm.nodup_iff.2 List.nodup_range) he hne'
    exact ⟨o, ho, hparent, id_lt_of_child_pointed hroot hids ho hchild, hone⟩
  · intro e he
    rcases Node.mem_listing_pointed.1 he with rfl | he | he
    · exact Node.lies_pointed hobject.lies
    · exact (Node.lies_schemaProperty hobject.start_boundary _ e he).1
    · exact (hfits e (by simp [arena_object hroot, he])).lies

/-- **A literal with a schema put in front.** -/
theorem pointed_of_lacks (hps : ∀ p ∈ ps, p.keyText? ≠ some schemaKey)
    (hfits : ∀ e ∈ d.arena, e.2.Fits cs) (uri : String) :
    Pointed cs uri d { d with root := some (.pointed m ps d.count uri), count := d.count + 3 } := by
  have hmem : (none, Node.object m ps) ∈ d.arena := by simp [arena_object hroot]
  have hobject : (Node.object m ps).Fits cs := hfits _ hmem
  have hnumbered : (Node.pointed m ps d.count uri).Numbered :=
    (numbered_pointed hroot hids uri).nodup_iff.2 List.nodup_range
  refine ⟨?_, ?_, ?_, sound_pointed hroot hids hfits uri, rfl, ?_, rfl, rfl, ?_, ?_⟩
  · intro o right
    simp only [nodeAt?, hroot, Option.bind_some]
    exact Node.deepest_pointed m ps d.count uri o right
  · intro e he hne
    rw [arena_object hroot] at he
    have hbelow : e ∈ Node.listingOf (some m.id) ps := by
      rcases List.mem_cons.1 he with rfl | he
      · exact absurd (root_id hroot hids) hne
      · exact he
    have hmem : e ∈ (Node.pointed m ps d.count uri).listing none :=
      Node.mem_listing_pointed.2 (.inr (.inr hbelow))
    refine ⟨hmem, ?_⟩
    simp only [find?, Node.find?, Option.bind_some]
    rw [Node.find?_listing hnumbered hmem, Option.map_some]
  · intro e he
    simp only [pathTo, hroot, Option.bind_some]
    rw [Node.pathTo?_pointed (id_lt_count hids he)]
  · intro e he
    rcases Node.mem_listing_pointed.1 he with rfl | he | he
    · have hlt : m.id < d.count := id_lt_count hids hmem
      exact .inl ⟨hlt, hobject.length_pos⟩
    · obtain ⟨-, hid, hlength, hoffset⟩ := Node.lies_schemaProperty hobject.start_boundary _ e he
      exact .inr ⟨hid, hlength, _, hroot, hoffset⟩
    · have hmem' : e ∈ d.arena := by simp [arena_object hroot, he]
      exact .inl ⟨id_lt_count hids hmem', (hfits e hmem').length_pos⟩
  · obtain ⟨ms, hms, hpointed⟩ := @Node.toJson_pointed m ps d.count uri hps
    exact ⟨ms, by rw [toJson?, hroot, Option.map_some, hms], by rw [toJson?, Option.map_some, hpointed]⟩
  · exact insertSchema_eq_self not_lacksSchema_pointed

end

/-- **A schema put in front is not seen.**  If the literal of a text is an object without a schema, the
    schema is put in: the nodes at all offsets, all nodes but the root, their paths, the errors and the
    comments stay as they are, the tree stays sound with three empty nodes more, the schema is the first
    member of the value, and no other can be put in after it.  Every other literal is left as it is. -/
theorem insertSchema_pointed (cs : Text) (allow : Bool) (uri : String) :
    ((parse cs allow).LacksSchema → ((parse cs allow).insertSchema uri).1 = true ∧
      Pointed cs uri (parse cs allow) ((parse cs allow).insertSchema uri).2) ∧
    (¬ (parse cs allow).LacksSchema → (parse cs allow).insertSchema uri = (false, parse cs allow)) := by
  constructor
  · intro h
    obtain ⟨m, ps, hroot, hps⟩ := h.root
    rw [insertSchema_eq hroot hps]
    exact ⟨rfl, pointed_of_lacks hroot (parse_ids cs allow) hps (parse_fits cs allow) uri⟩
  · intro h
    exact insertSchema_eq_self h uri

/-- The text `{a:{"$schema":1}}`. -/
def schemaBelow : Text :=
  ['{', 'a', ':', '{', '"', '$', 's', 'c', 'h', 'e', 'm', 'a', '"', ':', '1', '}', '}']

/-- The text `{$schema}`. -/
def schemaNamed : Text := ['{', '$', 's', 'c', 'h', 'e', 'm', 'a', '}']

/-- A schema further down does not count, a `$schema` without a value does. -/
theorem insertSchema_pointed_outermost :
    Pointed schemaBelow "u" (parse schemaBelow true) ((parse schemaBelow true).insertSchema "u").2 ∧
      (parse schemaNamed true).insertSchema "u" = (false, parse schemaNamed true) :=
  ⟨((insertSchema_pointed schemaBelow true "u").1 (by decide +kernel)).2,
    (insertSchema_pointed schemaNamed true "u").2 (by decide +kernel)⟩

end Literal

end AnnotatedJson
