/-
  The node at an offset.

  * `Node.Above`: a node is another one or above it, and `Node.mem_listing_iff`: these are the nodes
    that are listed;
  * `Node.Layered`: in a whole tree children lie in their parent, one after the other;
  * `Node.deepest_eq_find?`: the search finds the first node, in text order, that covers the offset
    without a child that does;
  * `Node.Layered.above_of_holds`: all nodes around a byte are above one another;
  * `Literal.parse_layered`, `Literal.Layered.insertSchema`: the trees that are searched;
  * `Literal.FindsAt`: what should be found at an offset;
  * `Literal.nodeAt?_innermost`: this is what is found.
-/
import Mathlib
import AnnotatedJson.Literal.Repair
import AnnotatedJson.Proofs.Tree

namespace AnnotatedJson

namespace Node

/-! ## Above and below -/

/-- The node is the other one or one of the nodes above it. -/
def Above : Node → Node → Prop := Relation.ReflTransGen fun n c => c ∈ n.children

variable {n m c : Node} {o : Nat} {right : Bool}

theorem above_cases : n.Above m ↔ m = n ∨ ∃ c ∈ n.children, c.Above m := by
  rw [Above, Relation.ReflTransGen.cases_head_iff, eq_comm]

/-- What holds of a node and of all nodes below its children holds of all nodes below it. -/
theorem forall_above_iff {P : Node → Prop} :
    (∀ m, n.Above m → P m) ↔ P n ∧ ∀ c ∈ n.children, ∀ m, c.Above m → P m := by
  constructor
  · intro h
    exact ⟨h n .refl, fun c hc m hm => h m (above_cases.2 (.inr ⟨c, hc, hm⟩))⟩
  · rintro ⟨hn, hchildren⟩ m hm
    rcases above_cases.1 hm with rfl | ⟨c, hc, hm⟩
    · exact hn
    · exact hchildren c hc m hm

theorem mem_listing_iff {parent : Option Nat} : m ∈ (n.listing parent).map (·.2) ↔ n.Above m := by
  induction n using induction_on generalizing parent with
  | h n ih =>
    rw [above_cases, listing_eq, List.map_cons, List.mem_cons]
    refine or_congr_right ?_
    simp only [List.mem_map, mem_listingOf]
    constructor
    · rintro ⟨e, ⟨c, hc, he⟩, rfl⟩
      exact ⟨c, hc, (ih c hc).1 (List.mem_map_of_mem he)⟩
    · rintro ⟨c, hc, hm⟩
      have hlisted : m ∈ (c.listing (some n.id)).map (·.2) := (ih c hc).2 hm
      obtain ⟨e, he, rfl⟩ := List.mem_map.1 hlisted
      exact ⟨e, ⟨c, hc, he⟩, rfl⟩

/-- The extents of the children lie in the extent of the node, one after the other. -/
structure Nests (n : Node) : Prop where
  nested : ∀ c ∈ n.children, n.offset ≤ c.offset ∧ c.stop ≤ n.stop
  ordered : n.children.Pairwise fun a b => a.stop ≤ b.offset

/-- All nodes of a tree have their children in order inside them. -/
def Layered (n : Node) : Prop := ∀ m, n.Above m → m.Nests

theorem layered_iff : n.Layered ↔ n.Nests ∧ ∀ c ∈ n.children, c.Layered := forall_above_iff

theorem Layered.nests (h : n.Layered) : n.Nests := (layered_iff.1 h).1

theorem Layered.child (h : n.Layered) (hc : c ∈ n.children) : c.Layered := (layered_iff.1 h).2 c hc

/-! ## Covering an offset -/

/-- An offset lies in the extent of a node. -/
def Holds (o : Nat) (n : Node) : Prop := n.offset ≤ o ∧ o < n.stop

/-- An offset lies in the extent of a node, which is not empty, or at its end. -/
def Touches (o : Nat) (n : Node) : Prop := 0 < n.mark.length ∧ n.offset ≤ o ∧ o ≤ n.stop

instance (o : Nat) : DecidablePred (Touches o) := fun _ => inferInstanceAs (Decidable (_ ∧ _))

theorem covers_false : n.mark.covers o false = true ↔ n.Holds o := by
  have hstop : n.mark.stop = n.mark.offset + n.mark.length := rfl
  simp [Mark.covers, Holds, offset, stop]
  omega

theorem covers_true : n.mark.covers o true = true ↔ n.Touches o := by
  have hstop : n.mark.stop = n.mark.offset + n.mark.length := rfl
  simp [Mark.covers, Touches, offset, stop]
  omega

theorem Nests.covers (h : n.Nests) (hc : c ∈ n.children) (hcov : c.mark.covers o right = true) :
    n.mark.covers o right = true := by
  obtain ⟨hlo, hhi⟩ := h.nested c hc
  cases right with
  | false =>
    rw [covers_false] at hcov ⊢
    exact ⟨hlo.trans hcov.1, hcov.2.trans_le hhi⟩
  | true =>
    rw [covers_true] at hcov ⊢
    obtain ⟨hpos, hstart, hstop⟩ := hcov
    refine ⟨?_, hlo.trans hstart, hstop.trans hhi⟩
    simp only [offset, stop, Mark.stop] at hlo hhi
    omega

/-- Two children do not share a byte. -/
theorem Nests.eq_of_holds (h : n.Nests) {c' : Node} (hc : c ∈ n.children) (hc' : c' ∈ n.children)
    (ho : c.Holds o) (ho' : c'.Holds o) : c = c' := by
  have hsymm : Std.Symm fun a b : Node => a.stop ≤ b.offset ∨ b.stop ≤ a.offset := ⟨fun _ _ => Or.symm⟩
  have hpair : n.children.Pairwise fun a b => a.stop ≤ b.offset ∨ b.stop ≤ a.offset :=
    h.ordered.imp Or.inl
  by_contra hne
  have hapart := hpair.forall hc hc' hne
  simp only [Holds] at ho ho'
  omega

theorem Layered.covers (h : n.Layered) (hm : n.Above m) (hcov : m.mark.covers o right = true) :
    n.mark.covers o right = true := by
  induction n using induction_on with
  | h n ih =>
    rcases above_cases.1 hm with rfl | ⟨c, hc, hm⟩
    · exact hcov
    · exact h.nests.covers hc (ih c hc (h.child hc) hm)

/-! ## The search -/

/-- The search goes on among the children of a node that covers the offset. -/
theorem deepest_eq (o : Nat) (right : Bool) (n : Node) :
    n.deepest o right =
      if n.mark.covers o right then some ((deepestOf o right n.children).getD n) else none := by
  cases n with
  | atom m a => simp [deepest, deepestOf, children, mark]
  | array m items | object m items => rw [deepest]; rfl
  | property m colon key value =>
    rw [deepest]
    simp only [children, deepestOf, mark]
    by_cases hk : o < key.offset
    · simp [hk]
    · cases deepest o right key <;> by_cases hv : o < value.offset <;> simp [hk, hv]
      cases deepest o right value <;> rfl
  | hole m colon key =>
    rw [deepest]
    simp only [children, deepestOf, mark]
    by_cases hk : o < key.offset
    · simp [hk]
    · cases deepest o right key <;> simp [hk]

theorem deepest_eq_none_iff : n.deepest o right = none ↔ n.mark.covers o right = false := by
  rw [deepest_eq]
  cases n.mark.covers o right <;> simp

/-- Siblings after the offset do not have to be looked at. -/
theorem deepestOf_eq_findSome? {ns : List Node} (h : ns.Pairwise fun a b => a.stop ≤ b.offset) :
    deepestOf o right ns = ns.findSome? (deepest o right) := by
  induction ns with
  | nil => rfl
  | cons n ns ih =>
    obtain ⟨hn, hns⟩ := List.pairwise_cons.1 h
    rw [deepestOf]
    split
    next hlt =>
      symm
      refine List.findSome?_eq_none_iff.2 fun c hc => deepest_eq_none_iff.2 ?_
      have hafter : o < c.offset := by
        rcases List.mem_cons.1 hc with rfl | hc
        · exact hlt
        · have hle : n.offset ≤ n.stop := Nat.le_add_right _ _
          exact (hlt.trans_le hle).trans_le (hn c hc)
      by_contra hcov
      cases right with
      | false => exact absurd (covers_false.1 (by simpa using hcov)).1 (by omega)
      | true => exact absurd (covers_true.1 (by simpa using hcov)).2.1 (by omega)
    next =>
      rw [List.findSome?_cons, ih hns]
      cases deepest o right n <;> rfl

/-- The node covers an offset, and none of its children does. -/
def innermost (o : Nat) (right : Bool) (n : Node) : Bool :=
  n.mark.covers o right && !n.children.any (·.mark.covers o right)

theorem innermost_false :
    n.innermost o false = true ↔ n.Holds o ∧ ∀ c ∈ n.children, ¬ c.Holds o := by
  simp [innermost, covers_false]

theorem innermost_true :
    n.innermost o true = true ↔ n.Touches o ∧ ∀ c ∈ n.children, ¬ c.Touches o := by
  simp [innermost, covers_true]

theorem find?_listingOf {p : Node → Bool} {f : Node → Option Node} {parent : Option Nat}
    {ns : List Node} (hf : ∀ c ∈ ns, f c = ((c.listing parent).map (·.2)).find? p) :
    ((listingOf parent ns).map (·.2)).find? p = ns.findSome? f := by
  induction ns with
  | nil => rfl
  | cons c ns ih =>
    obtain ⟨hc, hns⟩ := List.forall_mem_cons.1 hf
    rw [listingOf_cons, List.map_append, List.find?_append, ih hns, List.findSome?_cons, ← hc]
    cases f c <;> rfl

theorem Layered.deepest_eq_none_iff (h : n.Layered) :
    n.deepest o right = none ↔ ∀ m, n.Above m → ¬ m.mark.covers o right = true := by
  rw [Node.deepest_eq_none_iff]
  constructor
  · intro hn m hm hcov
    rw [h.covers hm hcov] at hn
    cases hn
  · intro hall
    simpa using hall n .refl

/-- The search finds the first node, in text order, that covers the offset without a child that
    does. -/
theorem deepest_eq_find? (h : n.Layered) (o : Nat) (right : Bool) (parent : Option Nat) :
    n.deepest o right = ((n.listing parent).map (·.2)).find? (innermost o right) := by
  induction n using induction_on generalizing parent with
  | h n ih =>
    have hrest : ((listingOf (some n.id) n.children).map (·.2)).find? (innermost o right) =
        n.children.findSome? (deepest o right) :=
      find?_listingOf fun c hc => ih c hc (h.child hc) _
    rw [deepest_eq, deepestOf_eq_findSome? h.nests.ordered, listing_eq, List.map_cons,
      List.find?_cons, hrest]
    by_cases hsome : ∃ c ∈ n.children, c.mark.covers o right = true
    · -- A child covers the offset, hence so does the node, and the child's branch has an answer.
      obtain ⟨c, hc, hcov⟩ := hsome
      have hn := h.nests.covers hc hcov
      have hany : n.children.any (·.mark.covers o right) = true := List.any_eq_true.2 ⟨c, hc, hcov⟩
      obtain ⟨found, hfound⟩ : ∃ found, n.children.findSome? (deepest o right) = some found := by
        rw [← Option.ne_none_iff_exists', ne_eq, List.findSome?_eq_none_iff]
        intro hnone
        have := deepest_eq_none_iff.1 (hnone c hc)
        rw [hcov] at this
        cases this
      simp [innermost, hn, hany, hfound]
    · have hany : n.children.any (·.mark.covers o right) = false := by
        simpa using hsome
      have hnone : n.children.findSome? (deepest o right) = none := by
        refine List.findSome?_eq_none_iff.2 fun c hc => deepest_eq_none_iff.2 ?_
        simpa using fun hcov => hsome ⟨c, hc, hcov⟩
      cases hn : n.mark.covers o right <;> simp [innermost, hn, hany, hnone]

/-- All nodes around a byte are above the one that has no child around it. -/
theorem Layered.above_of_holds (h : n.Layered) {e : Node} (he : n.Above e) (hm : n.Above m)
    (heo : e.Holds o) (hmo : m.Holds o) (hinner : ∀ c ∈ m.children, ¬ c.Holds o) : e.Above m := by
  induction n using induction_on with
  | h n ih =>
    rcases above_cases.1 he with rfl | ⟨c, hc, hce⟩
    · exact hm
    have hco : c.Holds o := covers_false.1 ((h.child hc).covers hce (covers_false.2 heo))
    rcases above_cases.1 hm with rfl | ⟨c', hc', hcm⟩
    · exact absurd hco (hinner c hc)
    have hco' : c'.Holds o := covers_false.1 ((h.child hc').covers hcm (covers_false.2 hmo))
    obtain rfl := h.nests.eq_of_holds hc hc' hco hco'
    exact ih c hc (h.child hc) hce hcm

end Node

namespace Literal

/-! ## Literals that are searched -/

/-- The nodes of a literal are those below its root. -/
theorem forall_arena_iff {d : Literal} {r : Node} (hr : d.root = some r) {P : Node → Prop} :
    (∀ e ∈ d.arena, P e.2) ↔ ∀ m, r.Above m → P m := by
  rw [arena, hr, Option.map_some, Option.getD_some, ← List.forall_mem_map]
  simp only [Node.mem_listing_iff]

/-- A node of a literal is below its root. -/
theorem above_of_mem_arena {d : Literal} {e : Option Nat × Node} (he : e ∈ d.arena) :
    ∃ r ∈ d.root, r.Above e.2 := by
  cases hr : d.root with
  | none => simp [arena, hr] at he
  | some r => exact ⟨r, rfl, (forall_arena_iff hr).2 (fun _ hm => hm) e he⟩

/-- The tree of a literal, if there is one, is layered. -/
def Layered (d : Literal) : Prop := ∀ r ∈ d.root, r.Layered

theorem parse_layered (cs : Text) (allow : Bool) : (parse cs allow).Layered := by
  intro r hr m hm
  have hfits : m.Fits cs := (forall_arena_iff hr).1 (parse_fits cs allow) m hm
  exact ⟨hfits.nested, hfits.ordered⟩

theorem insertSchema_cases (d : Literal) (uri : String) :
    (d.insertSchema uri).2 = d ∨ ∃ m properties, d.root = some (.object m properties) ∧
      (d.insertSchema uri).2.root =
        some (.object m (schemaProperty d.count m.offset uri :: properties)) := by
  unfold insertSchema
  split
  next m properties hroot =>
    split
    · exact .inl rfl
    · exact .inr ⟨m, properties, hroot, rfl⟩
  next => exact .inl rfl

/-- A schema that is put in has no extent and stands at the start of the root. -/
theorem Layered.insertSchema {d : Literal} (h : d.Layered) (uri : String) :
    (d.insertSchema uri).2.Layered := by
  rcases d.insertSchema_cases uri with hsame | ⟨m, properties, hroot, hpointed⟩
  · rwa [hsame]
  · have hobject : (Node.object m properties).Layered := h _ hroot
    have hatom : ∀ mark a, (Node.atom mark a).Layered := fun mark a =>
      Node.layered_iff.2 ⟨⟨by simp [Node.children], by simp [Node.children]⟩, by simp [Node.children]⟩
    intro r hr
    rw [hpointed] at hr
    cases hr
    refine Node.layered_iff.2 ⟨⟨?_, ?_⟩, ?_⟩
    · refine List.forall_mem_cons.2 ⟨⟨le_rfl, ?_⟩, hobject.nests.nested⟩
      exact Nat.le_add_right _ _
    · exact List.pairwise_cons.2 ⟨fun c hc => (hobject.nests.nested c hc).1, hobject.nests.ordered⟩
    · refine List.forall_mem_cons.2 ⟨?_, fun c hc => hobject.child hc⟩
      refine Node.layered_iff.2 ⟨⟨?_, ?_⟩, ?_⟩ <;>
        simp [schemaProperty, Node.children, Node.offset, Node.stop, Node.mark, Mark.stop, hatom]

/-- What should be found at an offset of a literal. -/
structure FindsAt (d : Literal) (o : Nat) : Prop where
  /-- Nothing is found iff no node holds the byte at the offset. -/
  none_iff : d.nodeAt? o false = none ↔ ∀ e ∈ d.arena, ¬ e.2.Holds o
  /-- What is found holds the byte, and every node that does is above it. -/
  deepest : ∀ n, d.nodeAt? o false = some n → (∃ e ∈ d.arena, e.2 = n) ∧ n.Holds o ∧
    ∀ e ∈ d.arena, e.2.Holds o → e.2.Above n
  none_iff_right : d.nodeAt? o true = none ↔ ∀ e ∈ d.arena, ¬ e.2.Touches o
  /-- What is found with ends included is the first node in text order that touches the offset and
      has no child that does. -/
  first : d.nodeAt? o true =
    (d.arena.map (·.2)).find? fun n => n.Touches o ∧ ∀ c ∈ n.children, ¬ c.Touches o

theorem Layered.findsAt {d : Literal} (h : d.Layered) (o : Nat) : d.FindsAt o := by
  cases hr : d.root with
  | none => constructor <;> simp [nodeAt?, arena, hr]
  | some r =>
    have hlayered := h r hr
    have harena : d.arena = r.listing none := by simp [arena, hr]
    have hnode : ∀ right, d.nodeAt? o right = r.deepest o right := by simp [nodeAt?, hr]
    refine ⟨?_, fun n hn => ?_, ?_, ?_⟩
    · rw [hnode, hlayered.deepest_eq_none_iff, forall_arena_iff (P := fun m => ¬ m.Holds o) hr]
      simp only [Node.covers_false]
    · rw [hnode, Node.deepest_eq_find? hlayered o false none] at hn
      have hmem := List.mem_of_find?_eq_some hn
      obtain ⟨hholds, hinner⟩ := Node.innermost_false.1 (List.find?_some hn)
      refine ⟨?_, hholds, ?_⟩
      · rw [harena]
        simpa using hmem
      · refine (forall_arena_iff (P := fun m => m.Holds o → m.Above n) hr).2 fun m hm ho => ?_
        exact hlayered.above_of_holds hm (Node.mem_listing_iff.1 hmem) ho hholds hinner
    · rw [hnode, hlayered.deepest_eq_none_iff, forall_arena_iff (P := fun m => ¬ m.Touches o) hr]
      simp only [Node.covers_true]
    · have hpred : Node.innermost o true =
          fun n => decide (n.Touches o ∧ ∀ c ∈ n.children, ¬ c.Touches o) := by
        funext n
        rw [Bool.eq_iff_iff, decide_eq_true_eq, Node.innermost_true]
      rw [hnode, Node.deepest_eq_find? hlayered o true none, harena, hpred]

/-- **The search finds the innermost node.**  In the literal of every text, also after a schema was
    put in, the node found at an offset holds the byte there and lies below all other nodes that do.
    With ends included, it is the first node in text order that touches the offset and has no child
    that does.  Nothing is found only if there is no such node. -/
theorem nodeAt?_innermost (cs : Text) (allow : Bool) (o : Nat) :
    (parse cs allow).FindsAt o ∧ ∀ uri, ((parse cs allow).insertSchema uri).2.FindsAt o :=
  ⟨(parse_layered cs allow).findsAt o, fun uri => ((parse_layered cs allow).insertSchema uri).findsAt o⟩

end Literal

end AnnotatedJson
