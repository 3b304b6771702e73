/-
  Holes filled by corrections.

  The value of a literal with its holes filled does not depend on how the new nodes are numbered, so it
  is the same with a schema in front or without one.

  * `Node.Alike`: nodes that say the same themselves;
  * `Literal.fillNode_step`, `Literal.fillNode_awaiting`: what is done at one node;
  * `Literal.Becomes`: what a node becomes, and `Literal.exists_becomes`: every node becomes one;
  * `Literal.fillNode_numbers`: the numbers that are taken, one for each hole that is filled;
  * `Literal.toJson_fillNode`: the value does not depend on the numbers;
  * `Literal.fillNode_again`: no hole is filled twice;
  * `Literal.Filling`: what comes of filling the holes of a literal;
  * `Literal.fillHoles_insertSchema`: the same comes of it with a schema in front and without one;
  * `RegionIndex.preview_eq_prepared`: a preview shows the value that requests are answered about.
-/
import Mathlib
import AnnotatedJson.Proofs.Repair
import AnnotatedJson.Proofs.SchemaProperty

namespace AnnotatedJson

/-- The nodes say the same themselves: their kind, their extent and the numbers of their children. -/
inductive Node.Alike : Node → Node → Prop
  | atom (m : Mark) (a : Atom) : Alike (.atom m a) (.atom m a)
  | array {m : Mark} {items items' : List Node} :
      items'.map id = items.map id → Alike (.array m items) (.array m items')
  | object {m : Mark} {ps ps' : List Node} :
      ps'.map id = ps.map id → Alike (.object m ps) (.object m ps')
  | property {m : Mark} {colon : Option Nat} {key key' value value' : Node} :
      key'.id = key.id → value'.id = value.id →
      Alike (.property m colon key value) (.property m colon key' value')
  | hole {m : Mark} {colon : Option Nat} {key key' : Node} :
      key'.id = key.id → Alike (.hole m colon key) (.hole m colon key')

theorem Node.Alike.refl (n : Node) : n.Alike n := by
  cases n with
  | atom m a => exact .atom m a
  | array m items => exact .array rfl
  | object m ps => exact .object rfl
  | property m colon key value => exact .property rfl rfl
  | hole m colon key => exact .hole rfl

namespace Literal

variable {corrections : List Correction} {n : Node} {next : Nat}

/-! ## The correction of a hole -/

instance (c : Correction) (m : Mark) : Decidable (Covers c m) := inferInstanceAs (Decidable (_ ∧ _))

/-- The correction is the last one that reaches over an extent. -/
def LastCovering (corrections : List Correction) (m : Mark) (c : Correction) : Prop :=
  ∃ before after, corrections = before ++ c :: after ∧ Covers c m ∧ ∀ c' ∈ after, ¬ Covers c' m

theorem lastCovering_of_correctionFor? {m : Mark} {c : Correction}
    (h : correctionFor? corrections m = some c) : LastCovering corrections m c := by
  obtain ⟨hc, after, before, hsplit, hafter⟩ := List.find?_eq_some_iff_append.1 h
  refine ⟨before.reverse, after.reverse, ?_, by simpa [Covers] using hc, ?_⟩
  · rw [← List.reverse_reverse corrections, hsplit]
    simp
  · rintro c' hc' ⟨hstart, hstop⟩
    have hnot := hafter c' (List.mem_reverse.1 hc')
    simp [hstart, hstop] at hnot

/-- The node is a hole that a correction reaches over. -/
def awaits (corrections : List Correction) : Node → Bool
  | .hole m _ _ => corrections.any fun c => decide (Covers c m)
  | _ => false

theorem awaits_hole {m : Mark} {colon : Option Nat} {key : Node} :
    awaits corrections (.hole m colon key) = (correctionFor? corrections m).isSome := by
  rw [Bool.eq_iff_iff]
  simp only [awaits, correctionFor?, List.any_eq_true, List.find?_isSome, List.mem_reverse,
    Bool.and_eq_true, decide_eq_true_eq]
  rfl

/-- What a node becomes when holes are filled: a hole under a correction gets the string of the last one
    as its value and reaches over it; all other nodes stay as they are. -/
inductive Becomes (corrections : List Correction) : Node → Node → Prop
  | kept {n n' : Node} : awaits corrections n = false → n.Alike n' → Becomes corrections n n'
  | filled {m : Mark} {colon : Option Nat} {key : Node} {c : Correction} (id : Nat) :
      LastCovering corrections m c → Becomes corrections (.hole m colon key)
        (.property ⟨m.id, m.offset, max m.length (c.value.span.stop - m.offset)⟩ colon key
          (.atom ⟨id, c.value.span.start, c.value.span.stop - c.value.span.start⟩
            (.string c.value.value)))

/-! ## Nodes with their holes filled -/

theorem fillNode_atom (m : Mark) (a : Atom) (next : Nat) :
    fillNode corrections next (.atom m a) = (.atom m a, next) := by rw [fillNode]

/-- What becomes of a hole. -/
theorem fillNode_hole (m : Mark) (colon : Option Nat) (key : Node) (next : Nat) :
    fillNode corrections next (.hole m colon key) = (.hole m colon key, next) ∧
        awaits corrections (.hole m colon key) = false ∨
      ∃ c, LastCovering corrections m c ∧ awaits corrections (.hole m colon key) = true ∧
        fillNode corrections next (.hole m colon key) = (fill m colon key c next, next + 1) := by
  rw [fillNode, awaits_hole]
  cases h : correctionFor? corrections m with
  | none => exact .inl ⟨rfl, rfl⟩
  | some c => exact .inr ⟨c, lastCovering_of_correctionFor? h, rfl, rfl⟩

theorem fillNode_id (next : Nat) (n : Node) : (fillNode corrections next n).1.id = n.id := by
  cases n with
  | hole m colon key =>
    rcases fillNode_hole m colon key next with ⟨h, -⟩ | ⟨c, -, -, h⟩
    · rw [h]
    · rw [h]; rfl
  | atom m a => rw [fillNode_atom]
  | array | object | property => simp only [fillNode]; rfl

theorem fillNode_keyText? (next : Nat) (n : Node) :
    (fillNode corrections next n).1.keyText? = n.keyText? := by
  cases n with
  | hole m colon key =>
    rcases fillNode_hole m colon key next with ⟨h, -⟩ | ⟨c, -, -, h⟩
    · rw [h]
    · rw [h]; rfl
  | atom m a => rw [fillNode_atom]
  | array | object | property => simp only [fillNode]; rfl

/-- Siblings are filled one by one. -/
theorem mem_fillNodes {ns : List Node} (hn : n ∈ ns) (next : Nat) :
    ∃ x, (fillNode corrections x n).1 ∈ (fillNodes corrections next ns).1 := by
  induction ns generalizing next with
  | nil => cases hn
  | cons m ns ih =>
    rw [fillNodes]
    rcases List.mem_cons.1 hn with rfl | hn
    · exact ⟨next, List.mem_cons_self⟩
    · obtain ⟨x, hx⟩ := ih hn (fillNode corrections next m).2
      exact ⟨x, List.mem_cons_of_mem _ hx⟩

theorem exists_of_mem_fillNodes {ns : List Node} {n' : Node}
    (h : n' ∈ (fillNodes corrections next ns).1) :
    ∃ n ∈ ns, ∃ x, n' = (fillNode corrections x n).1 := by
  induction ns generalizing next with
  | nil => rw [fillNodes] at h; cases h
  | cons m ns ih =>
    rw [fillNodes] at h
    rcases List.mem_cons.1 h with rfl | h
    · exact ⟨m, List.mem_cons_self, next, rfl⟩
    · obtain ⟨n, hn, hx⟩ := ih h
      exact ⟨n, List.mem_cons_of_mem _ hn, hx⟩

theorem fillNodes_ids (next : Nat) (ns : List Node) :
    (fillNodes corrections next ns).1.map Node.id = ns.map Node.id := by
  induction ns generalizing next with
  | nil => rw [fillNodes]
  | cons n ns ih => rw [fillNodes, List.map_cons, List.map_cons, fillNode_id, ih]

/-- **A node that is no hole to be filled stays as it is, and its children are filled.** -/
theorem fillNode_step (hs : n.Shaped) (hn : awaits corrections n = false) (next : Nat) :
    n.Alike (fillNode corrections next n).1 ∧
      (fillNode corrections next n).1.children = (fillNodes corrections next n.children).1 ∧
      (fillNode corrections next n).2 = (fillNodes corrections next n.children).2 := by
  cases n with
  | atom m a =>
    rw [fillNode_atom, Node.children, fillNodes]
    exact ⟨.refl _, rfl, rfl⟩
  | array m items =>
    rw [fillNode]
    exact ⟨.array (fillNodes_ids next items), rfl, rfl⟩
  | object m ps =>
    rw [fillNode]
    exact ⟨.object (fillNodes_ids next ps), rfl, rfl⟩
  | property m colon key value =>
    obtain ⟨⟨kmark, s, rfl⟩, -⟩ := hs
    rw [fillNode]
    refine ⟨.property rfl (fillNode_id next value), ?_, ?_⟩ <;>
      simp [Node.children, fillNodes, fillNode_atom]
  | hole m colon key =>
    obtain ⟨kmark, s, rfl⟩ := hs
    rcases fillNode_hole m colon (.atom kmark (.string s)) next with ⟨h, -⟩ | ⟨c, -, hawaits, -⟩
    · rw [h]
      refine ⟨.refl _, ?_, ?_⟩ <;> simp [Node.children, fillNodes, fillNode_atom]
    · rw [hn] at hawaits
      cases hawaits

/-- **A hole to be filled gets the string of the last correction over it.** -/
theorem fillNode_awaiting (hs : n.Shaped) (hn : awaits corrections n = true) (next : Nat) :
    ∃ m colon kmark s c, n = .hole m colon (.atom kmark (.string s)) ∧ LastCovering corrections m c ∧
      fillNode corrections next n = (fill m colon (.atom kmark (.string s)) c next, next + 1) := by
  cases n with
  | atom | array | object | property => cases hn
  | hole m colon key =>
    obtain ⟨kmark, s, rfl⟩ := hs
    rcases fillNode_hole m colon (.atom kmark (.string s)) next with ⟨-, hnot⟩ | ⟨c, hlast, -, h⟩
    · rw [hn] at hnot
      cases hnot
    · exact ⟨m, colon, kmark, s, c, rfl, hlast, h⟩

/-- **Every node of a tree becomes one of the tree with its holes filled.** -/
theorem exists_becomes (hs : ∀ m, n.Above m → m.Shaped) (next : Nat) {parent : Option Nat}
    {e : Option Nat × Node} (he : e ∈ n.listing parent) :
    ∃ n', (e.1, n') ∈ (fillNode corrections next n).1.listing parent ∧ Becomes corrections e.2 n' := by
  induction n using Node.induction_on generalizing parent next with
  | h n ih =>
    obtain ⟨hshape, hbelow⟩ := Node.forall_above_iff.1 hs
    rw [Node.listing_eq] at he
    cases hawaits : awaits corrections n with
    | false =>
      obtain ⟨halike, hchildren, -⟩ := fillNode_step hshape hawaits next
      rw [Node.listing_eq, fillNode_id, hchildren]
      rcases List.mem_cons.1 he with rfl | he
      · exact ⟨_, List.mem_cons_self, .kept hawaits halike⟩
      · obtain ⟨c, hc, he⟩ := Node.mem_listingOf.1 he
        obtain ⟨x, hx⟩ := mem_fillNodes hc next
        obtain ⟨n', hn', hbecomes⟩ := ih c hc (hbelow c hc) x he
        exact ⟨n', List.mem_cons_of_mem _ (Node.mem_listingOf.2 ⟨_, hx, hn'⟩), hbecomes⟩
    | true =>
      obtain ⟨m, colon, kmark, s, c, rfl, hlast, h⟩ := fillNode_awaiting hshape hawaits next
      rw [h]
      rcases List.mem_cons.1 he with rfl | he
      · exact ⟨_, Node.mem_listing_self _ _, .filled next hlast⟩
      · -- The key is the only child of a hole, and stays the key.
        have hkey : e = (some m.id, .atom kmark (.string s)) := by
          simpa [Node.children, Node.listingOf, Node.listing, Node.id, Node.mark] using he
        subst hkey
        exact ⟨_, by simp [fill, Node.listing], .kept rfl (.refl _)⟩

/-! ## Numbers -/

/-- How many holes of a tree are filled. -/
def awaiting (corrections : List Correction) (n : Node) : Nat :=
  (n.listing none).countP fun e => awaits corrections e.2

theorem countP_listingOf (parent : Option Nat) (ns : List Node) :
    (Node.listingOf parent ns).countP (fun e => awaits corrections e.2) =
      (ns.map (awaiting corrections)).sum := by
  induction ns with
  | nil => rfl
  | cons n ns ih =>
    rw [Node.listingOf_cons, List.countP_append, ih, List.map_cons, List.sum_cons, awaiting,
      Node.listing_eq, Node.listing_eq none, List.countP_cons, List.countP_cons]

theorem awaiting_eq (n : Node) : awaiting corrections n =
    (n.children.map (awaiting corrections)).sum + if awaits corrections n then 1 else 0 := by
  rw [awaiting, Node.listing_eq, List.countP_cons, countP_listingOf]

/-- The tree has the numbers it had and those from `next` on, one for each hole that is filled. -/
structure Numbers (corrections : List Correction) (next : Nat) (n : Node) : Prop where
  after : (fillNode corrections next n).2 = next + awaiting corrections n
  ids : (fillNode corrections next n).1.ids.Perm
    (n.ids ++ List.range' next (awaiting corrections n))

theorem fillNodes_numbers {ns : List Node} (h : ∀ n ∈ ns, ∀ x, Numbers corrections x n) (next : Nat) :
    (fillNodes corrections next ns).2 = next + (ns.map (awaiting corrections)).sum ∧
      ((fillNodes corrections next ns).1.flatMap Node.ids).Perm
        (ns.flatMap Node.ids ++ List.range' next (ns.map (awaiting corrections)).sum) := by
  induction ns generalizing next with
  | nil => simp [fillNodes]
  | cons n ns ih =>
    obtain ⟨hn, hns⟩ := List.forall_mem_cons.1 h
    obtain ⟨hnext, hids⟩ := hn next
    obtain ⟨hnext', hids'⟩ := ih hns (next + awaiting corrections n)
    rw [fillNodes]
    simp only [hnext, List.map_cons, List.sum_cons, List.flatMap_cons]
    refine ⟨by rw [hnext', Nat.add_assoc], ?_⟩
    rw [← List.range'_append_1, List.append_assoc]
    refine (hids.append hids').trans ?_
    rw [List.append_assoc]
    exact (List.perm_append_comm_assoc _ _ _).append_left _

/-- **Filling holes takes one number for each.** -/
theorem fillNode_numbers (hs : ∀ m, n.Above m → m.Shaped) (next : Nat) :
    Numbers corrections next n := by
  induction n using Node.induction_on generalizing next with
  | h n ih =>
    obtain ⟨hshape, hbelow⟩ := Node.forall_above_iff.1 hs
    obtain ⟨hafter, hids⟩ := fillNodes_numbers (fun c hc x => ih c hc (hbelow c hc) x) next
    cases hawaits : awaits corrections n with
    | false =>
      obtain ⟨-, hchildren, hnext⟩ := fillNode_step hshape hawaits next
      have hawaiting : awaiting corrections n = (n.children.map (awaiting corrections)).sum := by
        rw [awaiting_eq, hawaits]
        rfl
      constructor
      · rw [hnext, hafter, hawaiting]
      · rw [Node.ids_eq, Node.ids_eq n, fillNode_id, hchildren, hawaiting]
        exact hids.cons _
    | true =>
      obtain ⟨m, colon, kmark, s, c, rfl, -, h⟩ := fillNode_awaiting hshape hawaits next
      have hawaiting : awaiting corrections (.hole m colon (.atom kmark (.string s))) = 1 := by
        have hkey : awaiting corrections (.atom kmark (.string s)) = 0 := by rw [awaiting_eq]; rfl
        rw [awaiting_eq, if_pos hawaits]
        simp [Node.children, hkey]
      constructor
      · rw [h, hawaiting]
      · rw [h, hawaiting]
        simp [fill, Node.ids_eq, Node.children, Node.id, Node.mark]

/-! ## Values -/

/-- The value of a property goes into the members of an object, whatever its number. -/
theorem membersJson_fillNodes {ps : List Node}
    (h : ∀ p ∈ ps, ∀ x y, (fillNode corrections x p).1.toJson = (fillNode corrections y p).1.toJson)
    (x y : Nat) (seen : List (String × Json)) :
    Node.membersJson seen (fillNodes corrections x ps).1 =
      Node.membersJson seen (fillNodes corrections y ps).1 := by
  induction ps generalizing x y seen with
  | nil => simp only [fillNodes]
  | cons p ps ih =>
    obtain ⟨hp, hps⟩ := List.forall_mem_cons.1 h
    have hvalue := hp x y
    simp only [fillNodes]
    cases p with
    | atom | array | object =>
      simp only [fillNode, Node.membersJson]
      exact ih hps _ _ _
    | property m colon key value =>
      simp only [fillNode, Node.toJson] at hvalue
      simp only [fillNode, Node.membersJson, hvalue]
      exact ih hps _ _ _
    | hole m colon key =>
      simp only [fillNode]
      cases correctionFor? corrections m with
      | none =>
        simp only [Node.membersJson]
        exact ih hps _ _ _
      | some c =>
        simp only [fill, Node.membersJson, Node.toJson]
        exact ih hps _ _ _

theorem itemsJson_fillNodes {items : List Node}
    (h : ∀ c ∈ items, ∀ x y, (fillNode corrections x c).1.toJson = (fillNode corrections y c).1.toJson)
    (x y : Nat) : Node.itemsJson (fillNodes corrections x items).1 =
      Node.itemsJson (fillNodes corrections y items).1 := by
  induction items generalizing x y with
  | nil => simp only [fillNodes]
  | cons c items ih =>
    obtain ⟨hc, hitems⟩ := List.forall_mem_cons.1 h
    simp only [fillNodes, Node.itemsJson]
    rw [hc x y, ih hitems _ (fillNode corrections y c).2]

/-- **The value of a node does not depend on the numbers of what it is filled with.** -/
theorem toJson_fillNode (x y : Nat) (n : Node) :
    (fillNode corrections x n).1.toJson = (fillNode corrections y n).1.toJson := by
  induction n using Node.induction_on generalizing x y with
  | h n ih =>
    cases n with
    | atom m a => rw [fillNode_atom, fillNode_atom]
    | array m items =>
      simp only [fillNode, Node.toJson]
      exact congrArg Json.array (itemsJson_fillNodes ih x y)
    | object m ps =>
      simp only [fillNode, Node.toJson]
      exact congrArg Json.object (membersJson_fillNodes ih x y [])
    | property m colon key value =>
      simp only [fillNode, Node.toJson]
      exact ih value (by simp [Node.children]) x y
    | hole m colon key =>
      simp only [fillNode]
      cases correctionFor? corrections m with
      | none => rfl
      | some c => simp only [fill, Node.toJson]

/-! ## Filling again -/

/-- **No hole is filled twice.** -/
theorem fillNode_again (next next' : Nat) (n : Node) :
    fillNode corrections next' (fillNode corrections next n).1 =
      ((fillNode corrections next n).1, next') := by
  induction n using Node.induction_on generalizing next next' with
  | h n ih =>
    have hagain : ∀ c ∈ (fillNodes corrections next n.children).1, ∀ x,
        fillNode corrections x c = (c, x) := by
      intro c hc x
      obtain ⟨b, hb, y, rfl⟩ := exists_of_mem_fillNodes hc
      exact ih b hb y x
    cases n with
    | atom m a => rw [fillNode_atom, fillNode_atom]
    | array m ns | object m ns =>
      have hns : fillNodes corrections next' (fillNodes corrections next ns).1 =
          ((fillNodes corrections next ns).1, next') := fillNodes_eq_self hagain next'
      simp only [fillNode, hns]
    | property m colon key value =>
      simp only [fillNode]
      rw [ih value (by simp [Node.children])]
    | hole m colon key =>
      rw [fillNode]
      cases h : correctionFor? corrections m with
      | none => simp only [fillNode, h]
      | some c => simp only [fill, fillNode]

/-! ## Literals with their holes filled -/

/-- What comes of filling the holes of a literal: how many they are, and the literal that is left. -/
structure Filling (corrections : List Correction) (d : Literal) (filled : Nat × Literal) : Prop where
  becomes : ∀ e ∈ d.arena, ∃ n, (e.1, n) ∈ filled.2.arena ∧ Becomes corrections e.2 n
  number : filled.1 = d.arena.countP fun e => awaits corrections e.2
  /-- There is one node more for each of them, and no other. -/
  count : filled.2.count = d.count + filled.1
  numbered : (filled.2.arena.map (·.2.id)).Perm (List.range filled.2.count)
  errors : filled.2.errors = d.errors
  comments : filled.2.comments = d.comments
  again : filled.2.fillHoles corrections = (0, filled.2)

variable {d : Literal} {m : Mark} {ps : List Node} {uri : String}

theorem fillHoles_eq {r : Node} (hr : d.root = some r) :
    d.fillHoles corrections = ((fillNode corrections d.count r).2 - d.count,
      { d with root := some (fillNode corrections d.count r).1,
               count := (fillNode corrections d.count r).2 }) := by
  rw [fillHoles, hr]

/-- **Filling the holes of a literal.** -/
theorem fillHoles_filling (hshape : ∀ r ∈ d.root, ∀ m, r.Above m → m.Shaped)
    (hids : (d.arena.map (·.2.id)).Perm (List.range d.count)) (corrections : List Correction) :
    Filling corrections d (d.fillHoles corrections) := by
  cases hr : d.root with
  | none =>
    have hnone : d.fillHoles corrections = (0, d) := by rw [fillHoles, hr]
    have harena : d.arena = [] := by rw [arena, hr]; rfl
    rw [hnone]
    exact ⟨by simp [harena], by simp [harena], rfl, hids, rfl, rfl, hnone⟩
  | some r =>
    have harena : d.arena = r.listing none := by rw [arena, hr]; rfl
    obtain ⟨hafter, hperm⟩ := @fillNode_numbers corrections r (hshape r hr) d.count
    have hnumber : (fillNode corrections d.count r).2 - d.count = awaiting corrections r := by
      rw [hafter, Nat.add_sub_cancel_left]
    rw [fillHoles_eq hr, hnumber]
    refine ⟨?_, by rw [harena]; rfl, hafter, ?_, rfl, rfl, ?_⟩
    · intro e he
      rw [harena] at he
      exact exists_becomes (hshape r hr) d.count he
    · have hrange : List.range (d.count + awaiting corrections r) =
          List.range d.count ++ List.range' d.count (awaiting corrections r) := by
        rw [List.range_eq_range', List.range_eq_range', ← List.range'_append_1, Nat.zero_add]
      rw [harena] at hids
      dsimp only
      rw [hafter, hrange]
      exact hperm.trans (hids.append_right _)
    · rw [fillHoles_eq rfl]
      simp only [fillNode_again, Nat.sub_self]

/-! ## With a schema in front -/

theorem fillNode_pointed (k next : Nat) :
    fillNode corrections next (.pointed m ps k uri) =
      (.pointed m (fillNodes corrections next ps).1 k uri, (fillNodes corrections next ps).2) := by
  simp only [Node.pointed, schemaProperty, fillNode, fillNodes]

theorem shaped_pointed (h : ∀ n, (Node.object m ps).Above n → n.Shaped) (k : Nat) :
    ∀ n, (Node.pointed m ps k uri).Above n → n.Shaped := by
  obtain ⟨hobject, hps⟩ := Node.forall_above_iff.1 h
  have hatom : ∀ mark a n, (Node.atom mark a).Above n → n.Shaped := fun mark a =>
    Node.forall_above_iff.2 ⟨trivial, by simp [Node.children]⟩
  refine Node.forall_above_iff.2 ⟨?_, List.forall_mem_cons.2 ⟨?_, hps⟩⟩
  · exact List.forall_mem_cons.2 ⟨rfl, hobject⟩
  · refine Node.forall_above_iff.2 ⟨⟨⟨_, _, rfl⟩, rfl⟩, ?_⟩
    exact List.forall_mem_cons.2 ⟨hatom _ _, List.forall_mem_singleton.2 (hatom _ _)⟩

/-- **The schema is the first member of the value, and all others are as without it.** -/
theorem toJson_fillNode_pointed (h : ∀ p ∈ ps, p.keyText? ≠ some schemaKey) (k x y : Nat) :
    ∃ ms, (fillNode corrections x (.object m ps)).1.toJson = .object ms ∧
      (fillNode corrections y (.pointed m ps k uri)).1.toJson =
        .object ((schemaKey, .string uri) :: ms) := by
  have hkeys : ∀ p ∈ (fillNodes corrections y ps).1, p.keyText? ≠ some schemaKey := by
    intro p hp
    obtain ⟨q, hq, z, rfl⟩ := exists_of_mem_fillNodes hp
    rw [fillNode_keyText?]
    exact h q hq
  obtain ⟨ms, hms, hpointed⟩ := @Node.toJson_pointed m (fillNodes corrections y ps).1 k uri hkeys
  refine ⟨ms, ?_, ?_⟩
  · rw [toJson_fillNode x y, fillNode]
    exact hms
  · rw [fillNode_pointed]
    exact hpointed

/-- A schema put in front has no hole. -/
theorem awaiting_pointed (k : Nat) :
    awaiting corrections (.pointed m ps k uri) = awaiting corrections (.object m ps) := by
  have hput : awaiting corrections (schemaProperty k m.offset uri) = 0 := rfl
  rw [awaiting_eq, awaiting_eq (.object m ps)]
  simp [Node.pointed, Node.children, hput, awaits]

section
variable (cs : Text) (allow : Bool) (uri : String) (corrections : List Correction)

theorem parse_filling :
    Filling corrections (parse cs allow) ((parse cs allow).fillHoles corrections) :=
  fillHoles_filling (fun r hr => (parse_shaped cs allow r hr).2)
    (.of_eq (parse_ids cs allow)) corrections

/-- **Filling the holes of a literal with a schema in front.** -/
theorem parse_pointed_filling : Filling corrections ((parse cs allow).insertSchema uri).2
    (((parse cs allow).insertSchema uri).2.fillHoles corrections) := by
  by_cases h : (parse cs allow).LacksSchema
  · obtain ⟨m, ps, hroot, hps⟩ := h.root
    rw [insertSchema_eq hroot hps]
    apply fillHoles_filling
    · rintro r ⟨⟩
      exact shaped_pointed (parse_shaped cs allow _ hroot).2 _
    · exact numbered_pointed hroot (parse_ids cs allow) uri
  · rw [insertSchema_eq_self h]
    exact parse_filling cs allow corrections

theorem fillHoles_number : (((parse cs allow).insertSchema uri).2.fillHoles corrections).1 =
    ((parse cs allow).fillHoles corrections).1 := by
  rw [(parse_pointed_filling cs allow uri corrections).number,
    (parse_filling cs allow corrections).number]
  by_cases h : (parse cs allow).LacksSchema
  · obtain ⟨m, ps, hroot, hps⟩ := h.root
    rw [insertSchema_eq hroot hps]
    simp only [arena, hroot, Option.map_some, Option.getD_some]
    exact awaiting_pointed _
  · rw [insertSchema_eq_self h]

/-- **The value of a literal with its holes filled, with a schema in front and without one.** -/
theorem toJson?_fillHoles :
    if ((parse cs allow).insertSchema uri).1 then
      ∃ ms, ((parse cs allow).fillHoles corrections).2.toJson? = some (.object ms) ∧
        (((parse cs allow).insertSchema uri).2.fillHoles corrections).2.toJson? =
          some (.object ((schemaKey, .string uri) :: ms))
    else (((parse cs allow).insertSchema uri).2.fillHoles corrections).2.toJson? =
      ((parse cs allow).fillHoles corrections).2.toJson? := by
  by_cases h : (parse cs allow).LacksSchema
  · obtain ⟨m, ps, hroot, hps⟩ := h.root
    rw [insertSchema_eq hroot hps, fillHoles_eq hroot, fillHoles_eq rfl, if_pos rfl]
    obtain ⟨ms, hms, hms'⟩ := toJson_fillNode_pointed hps _ _ _
    exact ⟨ms, congrArg some hms, congrArg some hms'⟩
  · rw [insertSchema_eq_self h]
    rfl

/-- **The holes of a literal are filled in the same way with a schema in front and without one.**  Every
    hole under a correction gets the string of the last one, and all other nodes stay; filling again
    changes nothing.  As many holes are filled with the schema as without it, and the value is the
    same but for the schema, which is its first member exactly if it was put in. -/
theorem fillHoles_insertSchema :
    Filling corrections (parse cs allow) ((parse cs allow).fillHoles corrections) ∧
    Filling corrections ((parse cs allow).insertSchema uri).2
      (((parse cs allow).insertSchema uri).2.fillHoles corrections) ∧
    (((parse cs allow).insertSchema uri).2.fillHoles corrections).1 =
      ((parse cs allow).fillHoles corrections).1 ∧
    if ((parse cs allow).insertSchema uri).1 then
      ∃ ms, ((parse cs allow).fillHoles corrections).2.toJson? = some (.object ms) ∧
        (((parse cs allow).insertSchema uri).2.fillHoles corrections).2.toJson? =
          some (.object ((schemaKey, .string uri) :: ms))
    else (((parse cs allow).insertSchema uri).2.fillHoles corrections).2.toJson? =
      ((parse cs allow).fillHoles corrections).2.toJson? := by
  refine ⟨parse_filling cs allow corrections, parse_pointed_filling cs allow uri corrections, ?_, ?_⟩
  · exact fillHoles_number cs allow uri corrections
  · exact toJson?_fillHoles cs allow uri corrections

end

end Literal

/-- **A preview shows the value that requests are answered about**, but for the schema that was put in
    front for them. -/
theorem RegionIndex.preview_eq_prepared (x : RegionIndex) (l : LiteralState) {i : Nat} {r : Region}
    (hr : x.regions[i]? = some r) :
    ∃ payload prepared, x.preview l.allowComments i = .ok payload ∧ x.prepare? l i = some prepared ∧
      ((∃ ms, payload.value = .object ms ∧ prepared.literal.toJson? = some (.object ((schemaKey,
          .string (r.schemaUri.getD (l.settings.schemaUriFor r.label))) :: ms))) ∨
        ∀ v, prepared.literal.toJson? = some v → payload.value = v) := by
  rw [preview, prepare?, hr]
  refine ⟨_, _, rfl, rfl, ?_⟩
  have hvalue := Literal.toJson?_fillHoles (x.subDocument i r).text l.allowComments
    (r.schemaUri.getD (l.settings.schemaUriFor r.label)) r.corrections
  split at hvalue
  · obtain ⟨ms, hms, hms'⟩ := hvalue
    exact .inl ⟨ms, congrArg (Option.getD · _) hms, hms'⟩
  · refine .inr fun v hv => ?_
    exact congrArg (Option.getD · _) (hvalue.symm.trans hv)

end AnnotatedJson
