/-
  Paths to nodes.

  * `Json.reach?`, `Node.reach?`: the value, or the node, that keys and indices lead to;
  * `Node.Shaped`: which nodes stand in which, and `Literal.parse_shaped`: every text is read so;
  * `Node.Leads`: steps from a node down to a node, and `Node.exists_leads`: some lead to every node
    that is no property and no key;
  * `Node.Leads.pathTo?_eq`: these are the steps that are found by the number of the node;
  * `Node.Leads.step`, `Node.Leads.reach`: one step, and all of them, lead to the same place in the
    tree and in its value;
  * `Literal.pathTo_leads_back`: the path to a node leads back to it.
-/
import Mathlib
import AnnotatedJson.Proofs.Deepest

namespace AnnotatedJson

namespace Json

/-! ## Following a path -/

/-- The value that one step leads to. -/
def child? (v : Json) : Segment → Option Json
  | .key name => v.member? name
  | .index i => v.item? i

/-- The value that a path leads to. -/
def reach? (v : Json) : List Segment → Option Json
  | [] => some v
  | s :: path => (v.child? s).bind (·.reach? path)

theorem lookup_insert (k name : String) (v : Json) (ms : List (String × Json)) :
    lookup k (insert name v ms) = if name = k then some v else lookup k ms := by
  induction ms with
  | nil => rfl
  | cons m ms ih =>
    obtain ⟨k', v'⟩ := m
    by_cases hname : k' = name
    · subst hname
      by_cases hk : k' = k <;> simp [insert, lookup, hk]
    · by_cases hk : k' = k
      · subst hk
        simp [insert, lookup, hname, Ne.symm hname]
      · simp [insert, lookup, hname, hk, ih]

end Json

namespace Node

/-- The item of an array. -/
def item? (n : Node) (i : Nat) : Option Node :=
  match n with
  | array _ items => items[i]?
  | _ => none

/-- The node that one step leads to. -/
def child? (n : Node) : Segment → Option Node
  | .key name => n.valueOf? name
  | .index i => n.item? i

/-- The node that a path leads to. -/
def reach? (n : Node) : List Segment → Option Node
  | [] => some n
  | s :: path => (n.child? s).bind (·.reach? path)

variable {n m c o : Node}

/-! ## The shape of a tree -/

/-- Items of arrays and values of properties are no properties; objects consist of properties, and
    the key of a property is a string. -/
def Shaped : Node → Prop
  | atom _ _ => True
  | array _ items => ∀ c ∈ items, c.isProperty = false
  | object _ properties => ∀ c ∈ properties, c.keyText?.isSome = true
  | property _ _ key value => (∃ m s, key = atom m (.string s)) ∧ value.isProperty = false
  | hole _ _ key => ∃ m s, key = atom m (.string s)

/-- Keys are strings. -/
theorem Shaped.key (h : o.Shaped) (hk : o.key? = some m) : ∃ mark s, m = atom mark (.string s) := by
  cases o with
  | atom | array | object => cases hk
  | property => cases hk; exact h.1
  | hole => cases hk; exact h

/-- No two properties of an object have the same key. -/
def DistinctKeys : Node → Prop
  | object _ properties => (properties.map keyText?).Nodup
  | _ => True

instance : DecidablePred DistinctKeys
  | object _ properties => inferInstanceAs (Decidable (properties.map keyText?).Nodup)
  | atom .. | array .. | property .. | hole .. => inferInstanceAs (Decidable True)

/-! ## Numbers of a tree -/

/-- The numbers of a node and the nodes below it. -/
def ids (n : Node) : List Nat := (n.listing none).map (·.2.id)

/-- No number occurs twice. -/
def Numbered (n : Node) : Prop := n.ids.Nodup

theorem map_listingOf (parent : Option Nat) (ns : List Node) :
    (listingOf parent ns).map (·.2.id) = ns.flatMap ids := by
  induction ns with
  | nil => rfl
  | cons n ns ih =>
    rw [listingOf_cons, List.map_append, ih, List.flatMap_cons, ids, listing_eq, listing_eq none]
    rfl

theorem ids_eq (n : Node) : n.ids = n.id :: n.children.flatMap ids := by
  rw [ids, listing_eq, List.map_cons, map_listingOf]

theorem id_mem_ids (n : Node) : n.id ∈ n.ids := by
  rw [ids_eq]
  exact List.mem_cons_self

theorem ids_subset (h : n.Above m) : m.ids ⊆ n.ids := by
  induction n using induction_on with
  | h n ih =>
    rcases above_cases.1 h with rfl | ⟨c, hc, h⟩
    · exact List.Subset.refl _
    · rw [ids_eq n]
      intro id hid
      exact List.mem_cons_of_mem _ (List.mem_flatMap.2 ⟨c, hc, ih c hc h hid⟩)

/-- A number below one child is neither the number of the node nor below a child before. -/
theorem Numbered.split (h : n.Numbered) {before after : List Node}
    (hc : n.children = before ++ c :: after) :
    c.Numbered ∧ ∀ id ∈ c.ids, n.id ≠ id ∧ ∀ c' ∈ before, id ∉ c'.ids := by
  rw [Numbered, ids_eq, hc, List.flatMap_append, List.flatMap_cons, List.nodup_cons,
    List.nodup_append] at h
  obtain ⟨hn, -, hrest, hdisjoint⟩ := h
  refine ⟨(List.nodup_append.1 hrest).1, fun id hid => ⟨?_, fun c' hc' hid' => ?_⟩⟩
  · rintro rfl
    exact hn (List.mem_append_right _ (List.mem_append_left _ hid))
  · exact hdisjoint id (List.mem_flatMap.2 ⟨c', hc', hid'⟩) id (List.mem_append_left _ hid) rfl

/-- A number below the value of a property is neither that of the property nor that of its key. -/
theorem Numbered.value {mark : Mark} {colon : Option Nat} {key value : Node}
    (h : (property mark colon key value).Numbered) :
    value.Numbered ∧ ∀ id ∈ value.ids, mark.id ≠ id ∧ key.id ≠ id := by
  have hchildren : (property mark colon key value).children = [key] ++ value :: [] := rfl
  obtain ⟨hv, hsplit⟩ := h.split hchildren
  refine ⟨hv, fun id hid => ⟨(hsplit id hid).1, ?_⟩⟩
  rintro rfl
  exact (hsplit key.id hid).2 key List.mem_cons_self (id_mem_ids key)

theorem Numbered.below (h : n.Numbered) (hm : n.Above m) : m.Numbered := by
  induction n using induction_on with
  | h n ih =>
    rcases above_cases.1 hm with rfl | ⟨c, hc, hm⟩
    · exact h
    · obtain ⟨before, after, hsplit⟩ := List.append_of_mem hc
      exact ih c hc (h.split hsplit).1 hm

/-! ## Paths by number -/

section
variable {id : Nat} {steps : List PathStep} {before after : List Node}

theorem itemPath?_eq_none {ns : List Node} (h : ∀ c ∈ ns, pathTo? id c = none) (position : Nat) :
    itemPath? id position ns = none := by
  induction ns generalizing position with
  | nil => rfl
  | cons n ns ih =>
    obtain ⟨hn, hns⟩ := List.forall_mem_cons.1 h
    rw [itemPath?, hn]
    exact ih hns _

theorem memberPath?_eq_none {ns : List Node} (h : ∀ c ∈ ns, pathTo? id c = none) :
    memberPath? id ns = none := by
  induction ns with
  | nil => rfl
  | cons n ns ih =>
    obtain ⟨hn, hns⟩ := List.forall_mem_cons.1 h
    rw [memberPath?, hn]
    exact ih hns

theorem pathTo?_eq_none (h : id ∉ n.ids) : n.pathTo? id = none := by
  induction n using induction_on with
  | h n ih =>
    rw [ids_eq, List.mem_cons, not_or, List.mem_flatMap] at h
    obtain ⟨hn, hchildren⟩ := h
    have hnone : ∀ c ∈ n.children, pathTo? id c = none :=
      fun c hc => ih c hc fun hid => hchildren ⟨c, hc, hid⟩
    have hne : ∀ c ∈ n.children, c.id ≠ id := by
      rintro c hc rfl
      exact hchildren ⟨c, hc, id_mem_ids c⟩
    cases n with
    | atom mark a =>
      rw [pathTo?]
      exact if_neg (Ne.symm hn)
    | array mark items =>
      rw [pathTo?]
      exact (if_neg (Ne.symm hn)).trans (itemPath?_eq_none hnone 0)
    | object mark properties =>
      rw [pathTo?]
      exact (if_neg (Ne.symm hn)).trans (memberPath?_eq_none hnone)
    | property mark colon key value =>
      rw [pathTo?, hnone value (by simp [children])]
      exact if_neg (not_or.2 ⟨Ne.symm hn, hne key (by simp [children])⟩)
    | hole mark colon key =>
      rw [pathTo?]
      exact if_neg (not_or.2 ⟨Ne.symm hn, hne key (by simp [children])⟩)

theorem itemPath?_append (h : ∀ c' ∈ before, pathTo? id c' = none) (hc : pathTo? id c = some steps)
    (position : Nat) : itemPath? id position (before ++ c :: after) =
      some (⟨.index (position + before.length), some c⟩ :: steps) := by
  induction before generalizing position with
  | nil => rw [List.nil_append, itemPath?, hc]; rfl
  | cons n ns ih =>
    obtain ⟨hn, hns⟩ := List.forall_mem_cons.1 h
    rw [List.cons_append, itemPath?, hn]
    simp only [ih hns, List.length_cons]
    rw [Nat.add_assoc, Nat.add_comm 1]

theorem memberPath?_append (h : ∀ c' ∈ before, pathTo? id c' = none)
    (hc : pathTo? id c = some steps) : memberPath? id (before ++ c :: after) = some steps := by
  induction before with
  | nil => rw [List.nil_append, memberPath?, hc]
  | cons n ns ih =>
    obtain ⟨hn, hns⟩ := List.forall_mem_cons.1 h
    rw [List.cons_append, memberPath?, hn]
    exact ih hns

theorem pathTo?_item {mark : Mark} (hn : (array mark (before ++ c :: after)).Numbered)
    (hid : id ∈ c.ids) (hc : pathTo? id c = some steps) :
    pathTo? id (array mark (before ++ c :: after)) =
      some (⟨.index before.length, some c⟩ :: steps) := by
  obtain ⟨-, hsplit⟩ := hn.split rfl
  obtain ⟨hne, hbefore⟩ := hsplit id hid
  have hmark : mark.id ≠ id := hne
  rw [pathTo?, if_neg hmark, itemPath?_append (fun c' hc' => pathTo?_eq_none (hbefore c' hc')) hc,
    Nat.zero_add]

theorem pathTo?_member {mark : Mark} (hn : (object mark (before ++ c :: after)).Numbered)
    (hid : id ∈ c.ids) (hc : pathTo? id c = some steps) :
    pathTo? id (object mark (before ++ c :: after)) = some steps := by
  obtain ⟨-, hsplit⟩ := hn.split rfl
  obtain ⟨hne, hbefore⟩ := hsplit id hid
  have hmark : mark.id ≠ id := hne
  rw [pathTo?, if_neg hmark]
  exact memberPath?_append (fun c' hc' => pathTo?_eq_none (hbefore c' hc')) hc

theorem pathTo?_value {mark : Mark} {colon : Option Nat} {key value : Node}
    (hn : (property mark colon key value).Numbered) (hid : id ∈ value.ids)
    (hc : pathTo? id value = some steps) :
    pathTo? id (property mark colon key value) =
      some ((property mark colon key value).step :: steps) := by
  rw [pathTo?, if_neg (not_or.2 (hn.value.2 id hid)), hc]
  rfl

theorem pathTo?_self (h : n.isProperty = false) : n.pathTo? n.id = some [] := by
  cases n with
  | atom | array | object => rw [pathTo?]; exact if_pos rfl
  | property | hole => cases h

end

/-! ## Steps that lead to a node -/

/-- Steps from a node down to another: through the items of arrays, and through the values of
    properties of objects. -/
inductive Leads : Node → List PathStep → Node → Prop
  | refl (n : Node) : Leads n [] n
  | item {mark : Mark} {before after : List Node} {c n : Node} {steps : List PathStep}
    (h : Leads c steps n) :
    Leads (array mark (before ++ c :: after)) (⟨.index before.length, some c⟩ :: steps) n
  | member {mark pmark : Mark} {colon : Option Nat} {key value n : Node} {before after : List Node}
    {steps : List PathStep} (h : Leads value steps n) :
    Leads (object mark (before ++ property pmark colon key value :: after))
      ((property pmark colon key value).step :: steps) n

variable {steps : List PathStep}

theorem Leads.above (h : n.Leads steps m) : n.Above m := by
  induction h with
  | refl n => exact .refl
  | item _ ih => exact .head (by simp [children]) ih
  | @member mark pmark colon key value m before after steps _ ih =>
    have hp : (property pmark colon key value).Above m := .head (by simp [children]) ih
    exact .head (by simp [children]) hp

/-- Steps that lead to a node are the first steps to everything below it. -/
theorem Leads.pathTo?_eq (h : n.Leads steps m) (hn : n.Numbered) {id : Nat} (hid : id ∈ m.ids)
    {rest : List PathStep} (hrest : m.pathTo? id = some rest) :
    n.pathTo? id = some (steps ++ rest) := by
  induction h with
  | refl n => exact hrest
  | item h ih => exact pathTo?_item hn (ids_subset h.above hid) (ih (hn.split rfl).1 hid hrest)
  | @member mark pmark colon key value _ before after _ h ih =>
    have hp : (property pmark colon key value).Numbered := (hn.split rfl).1
    have hmem := ids_subset h.above hid
    refine pathTo?_member hn ?_ (pathTo?_value hp hmem (ih hp.value.1 hid hrest))
    rw [ids_eq]
    simp [children, hmem]

theorem keyText?_property {mark : Mark} {colon : Option Nat} {key value : Node} :
    (property mark colon key value).keyText? = key.text? := rfl

/-- Below a property there are its key and what is below its value. -/
theorem exists_value_above (hc : c.keyText?.isSome = true) (hs : c.Shaped) (hm : c.Above m)
    (hp : m.isProperty = false) (hk : c.key? ≠ some m) : ∃ v, c.value? = some v ∧ v.Above m := by
  have hatom : ∀ {mark a}, (atom mark a).Above m → m = atom mark a := by
    intro mark a h
    rcases above_cases.1 h with rfl | ⟨c, hc, -⟩
    · rfl
    · cases hc
  cases c with
  | atom | array | object => cases hc
  | property mark colon key value =>
    obtain ⟨⟨kmark, s, rfl⟩, -⟩ := hs
    rcases above_cases.1 hm with rfl | ⟨c', hc', hm'⟩
    · cases hp
    · simp only [children, List.mem_cons, List.not_mem_nil, or_false] at hc'
      rcases hc' with rfl | rfl
      · exact absurd (congrArg some (hatom hm').symm) hk
      · exact ⟨c', rfl, hm'⟩
  | hole mark colon key =>
    obtain ⟨kmark, s, rfl⟩ := hs
    rcases above_cases.1 hm with rfl | ⟨c', hc', hm'⟩
    · cases hp
    · cases List.mem_singleton.1 hc'
      exact absurd (congrArg some (hatom hm').symm) hk

/-- Some steps lead to every node that is no property and no key. -/
theorem exists_leads (hs : ∀ m, n.Above m → m.Shaped) (hn : n.isProperty = false) (hm : n.Above m)
    (hp : m.isProperty = false) (hk : ∀ o, n.Above o → o.key? ≠ some m) :
    ∃ steps, n.Leads steps m := by
  -- Values of properties are two levels down, so the induction carries a statement about both.
  suffices h : (n.isProperty = false → ∃ steps, n.Leads steps m) ∧
      ∀ v ∈ n.value?, v.Above m → ∃ steps, v.Leads steps m from h.1 hn
  clear hn
  induction n using induction_on with
  | h n ih =>
    obtain ⟨hshape, hbelow⟩ := forall_above_iff.1 hs
    obtain ⟨hkey, hkeys⟩ := forall_above_iff.1 hk
    constructor
    · intro hn
      rcases above_cases.1 hm with rfl | ⟨c, hc, hcm⟩
      · exact ⟨[], .refl m⟩
      have hchild := ih c hc (hbelow c hc) hcm (hkeys c hc)
      cases n with
      | atom => cases hc
      | array mark items =>
        obtain ⟨steps, h⟩ := hchild.1 (hshape c hc)
        obtain ⟨before, after, rfl⟩ := List.append_of_mem hc
        exact ⟨_, .item h⟩
      | object mark properties =>
        obtain ⟨v, hv, hvm⟩ := exists_value_above (hshape c hc) (hbelow c hc c .refl) hcm hp
          (hkeys c hc c .refl)
        obtain ⟨steps, h⟩ := hchild.2 v hv hvm
        obtain ⟨before, after, rfl⟩ := List.append_of_mem hc
        cases c with
        | atom | array | object | hole => cases hv
        | property => cases hv; exact ⟨_, .member h⟩
      | property | hole => cases hn
    · intro v hv hvm
      cases n with
      | atom | array | object | hole => cases hv
      | property mark colon key value =>
        obtain rfl : value = v := Option.some.inj hv
        have hmem : value ∈ (property mark colon key value).children := by simp [children]
        exact (ih value hmem (hbelow value hmem) hvm (hkeys value hmem)).1 hshape.2

/-! ## Following the steps -/

theorem itemsJson_eq_map (ns : List Node) : itemsJson ns = ns.map toJson := by
  induction ns with
  | nil => rw [itemsJson]; rfl
  | cons n ns ih => rw [itemsJson, ih]; rfl

theorem membersJson_append (seen : List (String × Json)) (a b : List Node) :
    membersJson seen (a ++ b) = membersJson (membersJson seen a) b := by
  induction a generalizing seen with
  | nil => rw [membersJson]; rfl
  | cons n ns ih => cases n <;> simp only [List.cons_append, membersJson, ih]

theorem lookup_membersJson {k : String} {ns : List Node} (h : ∀ n ∈ ns, n.keyText?.getD "" ≠ k)
    (seen : List (String × Json)) : Json.lookup k (membersJson seen ns) = Json.lookup k seen := by
  induction ns generalizing seen with
  | nil => rw [membersJson]
  | cons n ns ih =>
    obtain ⟨hn, hns⟩ := List.forall_mem_cons.1 h
    cases n with
    | property mark colon key value =>
      have hkey : key.text?.getD "" ≠ k := hn
      rw [membersJson, ih hns, Json.lookup_insert, if_neg hkey]
    | atom | array | object | hole => simp only [membersJson, ih hns]

/-- One step leads to the same place in the tree and in its value. -/
theorem Leads.step {s : PathStep} (h : n.Leads (s :: steps) m) (hs : n.Shaped) (hd : n.DistinctKeys) :
    ∃ c, s.node = some c ∧ n.child? s.segment = some c ∧
      n.toJson.child? s.segment = some c.toJson ∧ n.Above c ∧ c.Leads steps m := by
  cases h with
  | @item mark before after c _ _ h =>
    refine ⟨c, rfl, ?_, ?_, .single (by simp [children]), h⟩
    · simp [child?, item?]
    · simp [Json.child?, toJson, Json.item?, itemsJson_eq_map]
  | @member mark pmark colon key value _ before after _ h =>
    obtain ⟨k, hk⟩ : ∃ k, key.text? = some k :=
      Option.isSome_iff_exists.1 (hs (property pmark colon key value) (by simp))
    have hd' : ((before ++ property pmark colon key value :: after).map keyText?).Nodup := hd
    rw [List.map_append, List.map_cons, List.nodup_append, List.nodup_cons] at hd'
    obtain ⟨-, ⟨hafter, -⟩, hbefore⟩ := hd'
    have hsegment : (property pmark colon key value).step.segment = .key k := by
      simp [Node.step, keyText?_property, hk]
    refine ⟨value, rfl, ?_, ?_, ?_, h⟩
    · have hnone : before.find? (fun p => p.keyText? = some k) = none := by
        refine List.find?_eq_none.2 fun p hp hpk => ?_
        refine hbefore _ (List.mem_map_of_mem hp) _ List.mem_cons_self ?_
        rw [keyText?_property, hk]
        exact of_decide_eq_true hpk
      rw [hsegment]
      simp [child?, valueOf?, property?, hnone, keyText?_property, hk, value?]
    · have hlater : ∀ p ∈ after, p.keyText?.getD "" ≠ k := by
        intro p hp hpk
        obtain ⟨k', hk'⟩ := Option.isSome_iff_exists.1 (hs p (by simp [hp]))
        rw [hk', Option.getD_some] at hpk
        refine hafter (List.mem_map.2 ⟨p, hp, ?_⟩)
        rw [hk', keyText?_property, hk, hpk]
      rw [hsegment, toJson, membersJson_append, membersJson, hk]
      simp only [Json.child?, Json.member?, lookup_membersJson hlater, Json.lookup_insert,
        Option.getD_some, if_true]
    · have hp : (property pmark colon key value).Above value := .single (by simp [children])
      exact .head (by simp [children]) hp

/-- Steps lead to the same place in the tree and in its value, and every step knows its node. -/
theorem Leads.reach (h : n.Leads steps m) (hs : ∀ o, n.Above o → o.Shaped)
    (hd : ∀ o, n.Above o → o.DistinctKeys) :
    n.reach? (steps.map PathStep.segment) = some m ∧
    n.toJson.reach? (steps.map PathStep.segment) = some m.toJson ∧
    ∀ k s, steps[k]? = some s → s.node = n.reach? ((steps.map PathStep.segment).take (k + 1)) := by
  induction steps generalizing n with
  | nil =>
    cases h
    exact ⟨rfl, rfl, by simp⟩
  | cons s steps ih =>
    obtain ⟨c, hnode, hchild, hjson, hc, h⟩ := h.step (hs n .refl) (hd n .refl)
    obtain ⟨h₁, h₂, h₃⟩ := ih h (fun o ho => hs o (hc.trans ho)) fun o ho => hd o (hc.trans ho)
    refine ⟨?_, ?_, ?_⟩
    · rw [List.map_cons, reach?, hchild]
      exact h₁
    · rw [List.map_cons, Json.reach?, hjson]
      exact h₂
    · intro k t hk
      rw [List.map_cons, List.take_succ_cons, reach?, hchild]
      cases k with
      | zero =>
        cases hk
        exact hnode
      | succ k => exact h₃ k t hk

/-! ## Keys by number -/

theorem find?_listing (hn : n.Numbered) {e : Option Nat × Node} (he : e ∈ n.listing none) :
    (n.listing none).find? (fun x => x.2.id = e.2.id) = some e := by
  cases hf : (n.listing none).find? (fun x => x.2.id = e.2.id) with
  | none => exact absurd (List.find?_eq_none.1 hf e he) (by simp)
  | some x =>
    have hid : x.2.id = e.2.id := by simpa using List.find?_some hf
    rw [List.inj_on_of_nodup_map hn (List.mem_of_find?_eq_some hf) he hid]

/-- The node above a child is found by the number of the child. -/
theorem parent?_of_child (hn : n.Numbered) (ho : n.Above o) (hc : c ∈ o.children) :
    n.parent? c.id = some o := by
  have hmem : o ∈ (n.listing none).map (·.2) := mem_listing_iff.2 ho
  obtain ⟨e, he, rfl⟩ := List.mem_map.1 hmem
  have hchild := find?_listing hn (mem_listing_of_child he hc)
  simp [parent?, hchild, find?, find?_listing hn he]

theorem mem_children_of_key? (h : o.key? = some m) : m ∈ o.children := by
  cases o with
  | atom | array | object => cases h
  | property | hole => cases h; simp [children]

/-- The key of a property is known as one by its number. -/
theorem isKey_of_key? (hn : n.Numbered) (ho : n.Above o) (hk : o.key? = some m) :
    n.isKey m.id = true := by
  simp [isKey, parent?_of_child hn ho (mem_children_of_key? hk), hk]

/-- A property stands in an object. -/
theorem exists_object_above (hs : ∀ m, n.Above m → m.Shaped) (hn : n.isProperty = false)
    (hm : n.Above m) (hp : m.isProperty = true) :
    ∃ mark before after, n.Above (object mark (before ++ m :: after)) := by
  rcases Relation.ReflTransGen.cases_tail hm with rfl | ⟨o, ho, hmem⟩
  · rw [hn] at hp
    cases hp
  have hshape := hs o ho
  cases o with
  | atom => cases hmem
  | array mark items =>
    rw [hshape m hmem] at hp
    cases hp
  | object mark properties =>
    obtain ⟨before, after, rfl⟩ := List.append_of_mem hmem
    exact ⟨mark, before, after, ho⟩
  | property mark colon key value =>
    obtain ⟨⟨kmark, s, rfl⟩, hv⟩ := hshape
    simp only [children, List.mem_cons, List.not_mem_nil, or_false] at hmem
    rcases hmem with rfl | rfl
    · cases hp
    · rw [hv] at hp
      cases hp
  | hole mark colon key =>
    obtain ⟨kmark, s, rfl⟩ := hshape
    cases List.mem_singleton.1 hmem
    cases hp

/-- Paths to nodes below a property start with the steps to the object it stands in. -/
theorem exists_steps_property (hs : ∀ m, n.Above m → m.Shaped) (hn : n.isProperty = false)
    (hid : n.Numbered) (hm : n.Above m) (hp : m.isProperty = true) :
    ∃ steps, ∀ id ∈ m.ids, ∀ rest, m.pathTo? id = some rest →
      n.pathTo? id = some (steps ++ rest) := by
  obtain ⟨mark, before, after, ho⟩ := exists_object_above hs hn hm hp
  obtain ⟨steps, h⟩ := exists_leads hs hn ho rfl fun o ho hk => by
    obtain ⟨_, _, hatom⟩ := (hs o ho).key hk
    cases hatom
  refine ⟨steps, fun id hmem rest hrest => ?_⟩
  have hbelow : (object mark (before ++ m :: after)).Above m := .single (by simp [children])
  exact h.pathTo?_eq hid (ids_subset hbelow hmem) (pathTo?_member (hid.below ho) hmem hrest)

end Node

namespace Cursor

/-! ## Reading gives shaped trees -/

/-- What kind of node is read. -/
def Task.Gives : Task → Node → Prop
  | .value, n | .items _, n => n.isProperty = false
  | .members _ _, n | .property _ _, n => n.keyText?.isSome = true

theorem Reads.shaped {ctx : ParseContext} {task : Task} {p q : Cursor} {out : List Node}
    (h : Reads ctx task p out q) :
    ∀ n ∈ out, task.Gives n ∧ ∀ m, n.Above m → m.Shaped := by
  have hatom : ∀ mark a m, (Node.atom mark a).Above m → m.Shaped := fun mark a =>
    Node.forall_above_iff.2 ⟨trivial, by simp [Node.children]⟩
  induction h with
  | object _ _ ih | array _ _ ih =>
    refine List.forall_mem_singleton.2 ⟨rfl, Node.forall_above_iff.2 ⟨?_, fun c hc => (ih c hc).2⟩⟩
    exact fun c hc => (ih c hc).1
  | atom => exact List.forall_mem_singleton.2 ⟨rfl, hatom _ _⟩
  | noValue | itemsEnd | itemsTrailing | membersEnd | membersTrailing => simp
  | item _ _ _ ih₁ ih₂ | member _ _ _ _ _ ih₁ ih₂ =>
    exact List.forall_mem_cons.2 ⟨ih₁ _ List.mem_cons_self, ih₂⟩
  | noItem _ _ _ ih | leftover _ _ _ _ _ ih | noMember _ _ _ _ ih => exact ih
  | nextLine | valueless =>
    refine List.forall_mem_singleton.2 ⟨rfl, Node.forall_above_iff.2 ⟨⟨_, _, rfl⟩, ?_⟩⟩
    exact List.forall_mem_singleton.2 (hatom _ _)
  | valued _ _ _ ih =>
    obtain ⟨hv, hbelow⟩ := List.forall_mem_singleton.1 ih
    refine List.forall_mem_singleton.2 ⟨rfl, Node.forall_above_iff.2 ⟨⟨⟨_, _, rfl⟩, hv⟩, ?_⟩⟩
    exact List.forall_mem_cons.2 ⟨hatom _ _, List.forall_mem_singleton.2 hbelow⟩

end Cursor

namespace Literal

variable (cs : Text) (allow : Bool)

theorem parse_shaped : ∀ r ∈ (parse cs allow).root,
    r.isProperty = false ∧ ∀ m, r.Above m → m.Shaped := by
  obtain ⟨out, q, h, he⟩ := parse_eq cs allow
  rw [he]
  intro r hr
  exact h.shaped r (List.mem_of_mem_head? hr)

theorem parse_numbered : ∀ r ∈ (parse cs allow).root, r.Numbered := by
  intro r hr
  have h := parse_ids cs allow
  simp only [arena, Option.mem_def.1 hr, Option.map_some, Option.getD_some] at h
  rw [Node.Numbered, Node.ids, h]
  exact List.nodup_range

variable {cs allow} {d : Literal} {r n : Node}

/-- The keys and indices on the way to a node. -/
def segmentsTo (d : Literal) (n : Node) : List Segment := (d.pathTo n).map PathStep.segment

/-- The path to a node leads back to it. -/
structure LeadsBack (d : Literal) (n : Node) : Prop where
  /-- It leads to the node, from the root of the tree. -/
  node : d.root.bind (·.reach? (d.segmentsTo n)) = some n
  /-- It leads to the value of the node, from the value of the literal. -/
  value : d.toJson?.bind (·.reach? (d.segmentsTo n)) = some n.toJson
  /-- Every step names the node that is reached by it. -/
  steps : ∀ k s, (d.pathTo n)[k]? = some s →
    s.node = d.root.bind (·.reach? ((d.segmentsTo n).take (k + 1)))
  /-- The last step names the node itself. -/
  last : ∀ s, (d.pathTo n).getLast? = some s → s.node = some n

section
variable (hr : d.root = some r) (hn : r.Numbered) (hs : ∀ m, r.Above m → m.Shaped)
  (hroot : r.isProperty = false)
include hr hn hs hroot

theorem leadsBack (hd : ∀ m, r.Above m → m.DistinctKeys) (hm : r.Above n) (hp : n.isProperty = false)
    (hk : d.isKey n = false) : d.LeadsBack n := by
  have hkey : ∀ o, r.Above o → o.key? ≠ some n := by
    intro o ho hok
    simp [isKey, hr, Node.isKey_of_key? hn ho hok] at hk
  obtain ⟨steps, h⟩ := Node.exists_leads hs hroot hm hp hkey
  have hpath : d.pathTo n = steps := by
    have hfound := h.pathTo?_eq hn (Node.id_mem_ids n) (Node.pathTo?_self hp)
    rw [List.append_nil] at hfound
    simp [pathTo, hr, hfound]
  obtain ⟨hnode, hvalue, hsteps⟩ := h.reach hs hd
  constructor
  · rw [hr, segmentsTo, hpath]
    exact hnode
  · rw [toJson?, hr, segmentsTo, hpath]
    exact hvalue
  · rw [hr, segmentsTo, hpath]
    exact hsteps
  · rw [hpath]
    intro s hlast
    rw [List.getLast?_eq_getElem?] at hlast
    rw [hsteps _ s hlast, List.take_of_length_le, hnode]
    rw [List.length_map]
    omega

/-- A property, its key and its value have one path. -/
theorem pathTo_property {mark : Mark} {colon : Option Nat} {key value : Node}
    (hm : r.Above (.property mark colon key value)) :
    d.pathTo key = d.pathTo (.property mark colon key value) ∧
      d.pathTo value = d.pathTo (.property mark colon key value) := by
  obtain ⟨steps, h⟩ := Node.exists_steps_property hs hroot hn hm rfl
  have hpath : ∀ m : Node, m.id ∈ (Node.property mark colon key value).ids →
      (Node.property mark colon key value).pathTo? m.id =
        some [(Node.property mark colon key value).step] →
      d.pathTo m = steps ++ [(Node.property mark colon key value).step] := by
    intro m hid hfound
    simp [pathTo, hr, h m.id hid _ hfound]
  have hself := hpath (.property mark colon key value) (Node.id_mem_ids _) (if_pos (.inl rfl))
  have hvalue := Node.pathTo?_value (hn.below hm) (Node.id_mem_ids value)
    (Node.pathTo?_self (hs _ hm).2)
  rw [hself]
  constructor
  · exact hpath key (Node.ids_subset (.single (by simp [Node.children])) (Node.id_mem_ids key))
      (if_pos (.inr rfl))
  · exact hpath value (Node.ids_subset (.single (by simp [Node.children])) (Node.id_mem_ids value))
      hvalue

end

/-- **Paths lead back.**  In the literal of every text in which no object has a key twice, the path to
    a node that is no property and no key leads from the root to the node, and from the value of the
    literal to the value of the node; each of its steps names the node it reaches.  A property with a
    value, its key and its value have one path. -/
theorem pathTo_leads_back (cs : Text) (allow : Bool)
    (hd : ∀ e ∈ (parse cs allow).arena, e.2.DistinctKeys) :
    (∀ e ∈ (parse cs allow).arena, e.2.isProperty = false → (parse cs allow).isKey e.2 = false →
      (parse cs allow).LeadsBack e.2) ∧
    ∀ e ∈ (parse cs allow).arena, ∀ mark colon key value, e.2 = .property mark colon key value →
      (parse cs allow).pathTo key = (parse cs allow).pathTo e.2 ∧
      (parse cs allow).pathTo value = (parse cs allow).pathTo e.2 := by
  cases hr : (parse cs allow).root with
  | none => simp [arena, hr]
  | some r =>
    obtain ⟨hroot, hs⟩ := parse_shaped cs allow r hr
    have hn := parse_numbered cs allow r hr
    have habove : ∀ e ∈ (parse cs allow).arena, r.Above e.2 := (forall_arena_iff hr).2 fun _ h => h
    constructor
    · intro e he hp hk
      exact leadsBack hr hn hs hroot ((forall_arena_iff hr).1 hd) (habove e he) hp hk
    · intro e he mark colon key value hp
      have hm := habove e he
      rw [hp] at hm ⊢
      exact pathTo_property hr hn hs hroot hm

/-- `{"a":[{},{"b":null}]}` -/
def nestedLiteral : Text :=
  ['{', '"', 'a', '"', ':', '[', '{', '}', ',', '{', '"', 'b', '"', ':', 'n', 'u', 'l', 'l', '}', ']',
    '}']

theorem pathTo_leads_back_nested :
    (∀ e ∈ (parse nestedLiteral true).arena, e.2.DistinctKeys) ∧
    (parse nestedLiteral true).segmentsTo (.atom ⟨8, 14, 4⟩ .null) =
      [.key "a", .index 1, .key "b"] ∧
    (parse nestedLiteral true).LeadsBack (.atom ⟨8, 14, 4⟩ .null) := by
  have hd : ∀ e ∈ (parse nestedLiteral true).arena, e.2.DistinctKeys := by decide +kernel
  have hnull : (parse nestedLiteral true).arena[8]? = some (some 6, .atom ⟨8, 14, 4⟩ .null) := by cbv
  exact ⟨hd, by decide +kernel, (pathTo_leads_back nestedLiteral true hd).1 _
    (List.mem_of_getElem? hnull) rfl (by decide +kernel)⟩

end Literal

end AnnotatedJson
