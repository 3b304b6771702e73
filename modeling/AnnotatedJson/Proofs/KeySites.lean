/-
  Places for keys.

  Whether the cursor is at a key is decided by numbers and extents of nodes.  In the literals that
  requests are answered about, these agree with the tree.

  * `Literal.Repaired`: these literals, parsed and then repaired;
  * `Node.Sited`: a key that has an extent starts after its object does, and `Node.Shaped`;
  * `Literal.Repaired.navigable`: all nodes of such a literal are sited, and no number occurs twice;
  * `Literal.Navigable.completionNode?_key`: a key that proposals are for is the node under the cursor;
  * `Literal.Navigable.keySite?_key`, `Literal.Navigable.keySite?_object`: the place for a key.
-/
import Mathlib
import AnnotatedJson.Proofs.Extent
import AnnotatedJson.Proofs.Filling
import AnnotatedJson.Proofs.Origins
import AnnotatedJson.Schema.Assist

namespace AnnotatedJson

namespace Node

variable {n m c o p : Node}

/-! ## Parents -/

/-- What is found above a number is a node with a child of that number. -/
theorem child_of_parent? (hn : n.Numbered) {i : Nat} (h : n.parent? i = some o) :
    n.Above o ∧ ∃ c ∈ o.children, c.id = i := by
  obtain ⟨e, he, h⟩ := Option.bind_eq_some_iff.1 h
  obtain ⟨k, hk, h⟩ := Option.bind_eq_some_iff.1 h
  have hmem := List.mem_of_find?_eq_some he
  have hid : e.2.id = i := by simpa using List.find?_some he
  rcases exists_owner hmem with rfl | ⟨o', ho', howner, hchild⟩
  · cases hk
  · cases howner.symm.trans hk
    have hfound : n.find? o'.2.id = some o'.2 := by simp [find?, find?_listing hn ho']
    cases hfound.symm.trans h
    exact ⟨mem_listing_iff.1 (List.mem_map_of_mem ho'), e.2, hchild, hid⟩

/-- Nodes of one number are the same. -/
theorem Numbered.eq_of_id (hn : n.Numbered) (hm : n.Above m) (hc : n.Above c) (h : m.id = c.id) :
    m = c := by
  obtain ⟨e, he, rfl⟩ := List.mem_map.1 (mem_listing_iff.2 hm : m ∈ (n.listing none).map (·.2))
  obtain ⟨f, hf, rfl⟩ := List.mem_map.1 (mem_listing_iff.2 hc : c ∈ (n.listing none).map (·.2))
  rw [eq_of_id_eq hn he hf h]

/-! ## Keys in their objects -/

/-- A key of an object that has an extent starts after the object does. -/
def KeysInside (o : Node) : Prop :=
  o.isObject = true → ∀ p ∈ o.children, ∀ k ∈ p.key?, 0 < k.mark.length → o.offset < k.offset

/-- A node of the right shape whose keys are inside it. -/
structure Sited (n : Node) : Prop where
  shaped : n.Shaped
  inside : n.KeysInside

/-- Only an object has keys inside it. -/
theorem Shaped.sited (h : n.Shaped) (ho : n.isObject = false) : n.Sited := by
  refine ⟨h, fun hobject => ?_⟩
  rw [ho] at hobject
  cases hobject

theorem sited_atom (mark : Mark) (a : Atom) : ∀ m, (atom mark a).Above m → m.Sited :=
  forall_above_iff.2 ⟨Shaped.sited trivial rfl, by simp [children]⟩

/-- The schema that is put in front has no extent. -/
theorem sited_pointed {mark : Mark} {ps : List Node} (h : ∀ m, (object mark ps).Above m → m.Sited)
    (k : Nat) (uri : String) : ∀ m, (pointed mark ps k uri).Above m → m.Sited := by
  obtain ⟨hobject, hps⟩ := forall_above_iff.1 h
  refine forall_above_iff.2 ⟨⟨?_, ?_⟩, List.forall_mem_cons.2 ⟨?_, hps⟩⟩
  · exact List.forall_mem_cons.2 ⟨rfl, hobject.shaped⟩
  · intro _
    refine List.forall_mem_cons.2 ⟨?_, hobject.inside rfl⟩
    rintro key ⟨⟩ hlength
    exact absurd hlength (lt_irrefl 0)
  · refine forall_above_iff.2 ⟨Shaped.sited ⟨⟨_, _, rfl⟩, rfl⟩ rfl, ?_⟩
    exact List.forall_mem_cons.2 ⟨sited_atom _ _, List.forall_mem_singleton.2 (sited_atom _ _)⟩

end Node

namespace Literal

/-! ## Filling holes -/

section
variable {corrections : List Correction}

theorem fillNode_key? (next : Nat) (n : Node) : (fillNode corrections next n).1.key? = n.key? := by
  cases n with
  | hole m colon key =>
    rcases @fillNode_hole corrections m colon key next with ⟨h, -⟩ | ⟨c, -, -, h⟩
    · rw [h]
    · rw [h]
      rfl
  | atom | array | object | property => simp [fillNode, Node.key?]

theorem fillNode_isProperty (next : Nat) (n : Node) :
    (fillNode corrections next n).1.isProperty = n.isProperty := by
  cases n with
  | hole m colon key =>
    rcases @fillNode_hole corrections m colon key next with ⟨h, -⟩ | ⟨c, -, -, h⟩
    · rw [h]
    · rw [h]
      rfl
  | atom | array | object | property => simp [fillNode, Node.isProperty]

/-- Filling holes moves no key and no object. -/
theorem fillNode_sited {n : Node} (h : ∀ m, n.Above m → m.Sited) (next : Nat) :
    ∀ m, (fillNode corrections next n).1.Above m → m.Sited := by
  induction n using Node.induction_on generalizing next with
  | h n ih =>
    obtain ⟨hn, hbelow⟩ := Node.forall_above_iff.1 h
    have hfilled : ∀ ns : List Node, (∀ c ∈ ns, c ∈ n.children) →
        ∀ c ∈ (fillNodes corrections next ns).1, ∀ m, c.Above m → m.Sited := by
      intro ns hns c hc
      obtain ⟨c', hc', x, rfl⟩ := exists_of_mem_fillNodes hc
      exact ih c' (hns c' hc') (hbelow c' (hns c' hc')) x
    cases n with
    | atom mark a =>
      rw [fillNode_atom]
      exact h
    | array mark items =>
      rw [fillNode]
      refine Node.forall_above_iff.2 ⟨Node.Shaped.sited ?_ rfl, hfilled items fun c hc => hc⟩
      intro c hc
      obtain ⟨c', hc', x, rfl⟩ := exists_of_mem_fillNodes hc
      rw [fillNode_isProperty]
      exact hn.shaped c' hc'
    | object mark ps =>
      rw [fillNode]
      refine Node.forall_above_iff.2 ⟨⟨?_, ?_⟩, hfilled ps fun c hc => hc⟩
      · intro c hc
        obtain ⟨c', hc', x, rfl⟩ := exists_of_mem_fillNodes hc
        rw [fillNode_keyText?]
        exact hn.shaped c' hc'
      · intro _ c hc
        obtain ⟨c', hc', x, rfl⟩ := exists_of_mem_fillNodes hc
        rw [fillNode_key?]
        exact hn.inside rfl c' hc'
    | property mark colon key value =>
      rw [fillNode]
      obtain ⟨hkey, hvalue⟩ := hn.shaped
      refine Node.forall_above_iff.2 ⟨Node.Shaped.sited ⟨hkey, ?_⟩ rfl, ?_⟩
      · rw [fillNode_isProperty]
        exact hvalue
      · refine List.forall_mem_cons.2 ⟨hbelow key (by simp [Node.children]), ?_⟩
        exact List.forall_mem_singleton.2
          (ih value (by simp [Node.children]) (hbelow value (by simp [Node.children])) next)
    | hole mark colon key =>
      rcases @fillNode_hole corrections mark colon key next with
        ⟨hsame, -⟩ | ⟨c, -, -, hfill⟩
      · rw [hsame]
        exact h
      · rw [hfill]
        refine Node.forall_above_iff.2 ⟨Node.Shaped.sited ⟨hn.shaped, rfl⟩ rfl, ?_⟩
        refine List.forall_mem_cons.2 ⟨hbelow key (by simp [Node.children]), ?_⟩
        exact List.forall_mem_singleton.2 (Node.sited_atom _ _)

end

/-! ## Parsed literals -/

/-- The children of an object are read after its brace. -/
theorem parse_sited (cs : Text) (allow : Bool) :
    ∀ r ∈ (parse cs allow).root, ∀ m, r.Above m → m.Sited := by
  intro r hr m hm
  refine ⟨(parse_shaped cs allow r hr).2 m hm, fun hobject p hp k hk _ => ?_⟩
  have hmem : ∀ {c : Node}, r.Above c → ∃ e ∈ (parse cs allow).arena, e.2 = c := by
    intro c hc
    have hlisted : c ∈ (r.listing none).map (·.2) := Node.mem_listing_iff.2 hc
    simpa [arena, Option.mem_def.1 hr] using hlisted
  obtain ⟨e, he, rfl⟩ := hmem hm
  obtain ⟨f, hf, rfl⟩ := hmem (hm.tail hp)
  -- the property contains its key
  have hkey : f.2.offset ≤ k.offset :=
    ((parse_fits cs allow f hf).nested k (Node.mem_children_of_key? hk)).1
  refine lt_of_lt_of_le ?_ hkey
  have hproperty : e.2.isProperty = false := by
    cases he' : e.2 <;> simp_all [Node.isObject, Node.isProperty]
  cases parse_origin cs allow e he hproperty with
  | key h => rw [h] at hobject; cases hobject
  | @value p' q' h hready hsuffix =>
    have hon : Cursor.On cs p' := (opening_on cs allow).of_suffix hsuffix hready
    have hoffset := h.value_offset
    generalize e.2 = o at h hoffset hobject hp
    cases h with
    | @object _ ns q hk' h =>
      have hne : p'.kind ≠ .eof := by
        rw [hk']
        simp
      have hadvance : p'.start < (p'.fresh.2.advance (context cs allow)).start :=
        (hon.start_lt_stop hne).trans_le (hon.fresh.stop_le_advance hne)
      have hopened := (Cursor.goes_open (context cs allow) p' hne).ahead hon
      rw [hoffset]
      exact hadvance.trans_le ((h.laid hopened.on).bounds f.2 hp).1
    | array => cases hobject
    | atom => cases hobject

/-! ## Repaired literals -/

/-- The literals that requests are answered about: parsed, and repaired any number of times. -/
inductive Repaired (cs : Text) : Literal → Prop
  | parsed (allow : Bool) : Repaired cs (parse cs allow)
  | pointed {d : Literal} (uri : String) : Repaired cs d → Repaired cs (d.insertSchema uri).2
  | filled {d : Literal} (corrections : List Correction) :
      Repaired cs d → Repaired cs (d.fillHoles corrections).2
  | filtered {d : Literal} : Repaired cs d → Repaired cs d.dropShorthandErrors

/-- No number occurs twice, and all nodes are sited. -/
structure Navigable (d : Literal) : Prop where
  numbered : (d.arena.map (·.2.id)).Perm (List.range d.count)
  sited : ∀ r ∈ d.root, ∀ m, r.Above m → m.Sited

variable {d : Literal} {n : Node}

theorem Navigable.insertSchema (h : d.Navigable) (uri : String) : (d.insertSchema uri).2.Navigable := by
  by_cases hlacks : d.LacksSchema
  · obtain ⟨m, ps, hroot, hps⟩ := hlacks.root
    have hids := h.numbered
    rw [arena, hroot] at hids
    rw [insertSchema_eq hroot hps]
    refine ⟨Node.ids_pointed_range hids, ?_⟩
    rintro r ⟨⟩
    exact Node.sited_pointed (h.sited _ hroot) d.count uri
  · rw [insertSchema_eq_self hlacks]
    exact h

theorem Navigable.fillHoles (h : d.Navigable) (corrections : List Correction) :
    (d.fillHoles corrections).2.Navigable := by
  refine ⟨(fillHoles_filling (fun r hr m hm => (h.sited r hr m hm).shaped) h.numbered
    corrections).numbered, ?_⟩
  cases hr : d.root with
  | none =>
    rw [Literal.fillHoles, hr]
    exact h.sited
  | some root =>
    rw [fillHoles_eq hr]
    rintro r ⟨⟩
    exact fillNode_sited (h.sited root hr) d.count

/-- By induction on the repairs. -/
theorem Repaired.navigable {cs : Text} (h : Repaired cs d) : d.Navigable := by
  induction h with
  | parsed allow => exact ⟨.of_eq (parse_ids cs allow), parse_sited cs allow⟩
  | pointed uri _ ih => exact ih.insertSchema uri
  | filled corrections _ ih => exact ih.fillHoles corrections
  | filtered _ ih => exact ⟨ih.numbered, ih.sited⟩

/-! ## The place under the cursor -/

section
variable {r o p : Node} {cs : Text} {offset : Nat}

theorem Navigable.distinct (h : d.Navigable) (hr : d.root = some r) : r.Numbered := by
  have hids := h.numbered
  rw [arena, hr] at hids
  exact hids.nodup_iff.2 List.nodup_range

/-- Just after a bracket the cursor is at the node around it, else at the smallest node. -/
theorem completionNode?_cases (h : d.completionNode? cs offset = some n) :
    d.nodeAt? offset true = some n ∨ ∃ m, d.parent? m = some n := by
  obtain ⟨m, hm, h⟩ := Option.bind_eq_some_iff.1 h
  rcases ite_eq_iff.1 h with ⟨-, hparent⟩ | ⟨-, hself⟩
  · exact .inr ⟨m, hparent⟩
  · cases hself
    exact .inl hm

/-- A key that proposals are for is the smallest node at the cursor. -/
theorem Navigable.completionNode?_key (h : d.Navigable) (hr : d.root = some r) (hp : r.Above p)
    (hk : p.key? = some n) (hn : d.completionNode? cs offset = some n) :
    d.nodeAt? offset true = some n := by
  rcases completionNode?_cases hn with hat | ⟨m, hm⟩
  · exact hat
  · -- a key has no children
    obtain ⟨mark, s, rfl⟩ := (h.sited r hr p hp).shaped.key hk
    rw [parent?, hr] at hm
    obtain ⟨-, c, hc, -⟩ := Node.child_of_parent? (h.distinct hr) hm
    cases hc

/-- The smallest node at an offset is in the tree and touches the offset. -/
theorem nodeAt?_above (hr : d.root = some r) (h : d.nodeAt? offset true = some n) :
    r.Above n ∧ n.Touches offset := by
  rw [nodeAt?, hr, Option.bind_some] at h
  clear hr
  induction r using Node.induction_on with
  | h r ih =>
    rcases Node.deepest_cases h with ⟨rfl, hcovers⟩ | ⟨c, hc, h⟩
    · exact ⟨.refl, Node.covers_true.1 hcovers⟩
    · obtain ⟨habove, htouches⟩ := ih c hc h
      exact ⟨habove.head hc, htouches⟩

theorem Navigable.completionNode?_above (h : d.Navigable) (hr : d.root = some r)
    (hn : d.completionNode? cs offset = some n) : r.Above n := by
  rcases completionNode?_cases hn with hat | ⟨m, hm⟩
  · exact (nodeAt?_above hr hat).1
  · rw [parent?, hr] at hm
    exact (Node.child_of_parent? (h.distinct hr) hm).1

/-- On the key of a property, keys are proposed for its object. -/
theorem Navigable.keySite?_key (h : d.Navigable) (hr : d.root = some r) (ho : r.Above o)
    (hobject : o.isObject = true) (hp : p ∈ o.children) (hk : p.key? = some n)
    (hn : d.completionNode? cs offset = some n) :
    d.keySite? n = some ⟨o, some p, p.value?.isNone⟩ ∧ o.offset < offset := by
  have hnumbered := h.distinct hr
  have hkey : d.isKey n = true := by
    rw [isKey, hr]
    exact Node.isKey_of_key? hnumbered (ho.tail hp) hk
  have hproperty : d.parent? n = some p := by
    rw [parent?, hr]
    exact Node.parent?_of_child hnumbered (ho.tail hp) (Node.mem_children_of_key? hk)
  have howner : d.parent? p = some o := by
    rw [parent?, hr]
    exact Node.parent?_of_child hnumbered ho hp
  obtain ⟨-, hlength, hle, -⟩ := nodeAt?_above hr (h.completionNode?_key hr (ho.tail hp) hk hn)
  refine ⟨?_, ((h.sited r hr o ho).inside hobject p hp n hk hlength).trans_le hle⟩
  rw [keySite?, if_pos hkey, hproperty, Option.bind_eq_bind, Option.bind_some, howner]
  rfl

/-- In an object, keys are proposed for it. -/
theorem Navigable.keySite?_object (h : d.Navigable) (hr : d.root = some r) (ho : r.Above o)
    (hobject : o.isObject = true) : d.keySite? o = some ⟨o, none, true⟩ := by
  have hkey : d.isKey o = false := by
    -- only strings are keys
    rw [← Bool.not_eq_true]
    intro hkey
    rw [isKey, hr, Option.any_some, Node.isKey] at hkey
    split at hkey
    next k hk =>
      obtain ⟨p, hparent, hk⟩ := Option.bind_eq_some_iff.1 hk
      obtain ⟨hp, -⟩ := Node.child_of_parent? (h.distinct hr) hparent
      obtain ⟨mark, s, rfl⟩ := (h.sited r hr p hp).shaped.key hk
      have heq := (h.distinct hr).eq_of_id (hp.tail (Node.mem_children_of_key? hk)) ho
        (by simpa using hkey)
      rw [← heq] at hobject
      cases hobject
    next => cases hkey
  rw [keySite?, if_neg (by simp [hkey]), if_pos hobject]

end

end Literal

end AnnotatedJson
