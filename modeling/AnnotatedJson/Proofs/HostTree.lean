/-
  Parse trees of host documents: what is part of what, and where it lies.

  * `HostNode.induction_on`: induction over a tree by its children;
  * `HostNode.PartOf` relates a node to the nodes above it, and `annotated?_partOf` says that
    the object an annotated node means is part of it;
  * `HostNode.TreeFits` is what a grammar promises of a tree: extents between character
    boundaries, children inside their parent and one after the other.
-/
import Mathlib
import AnnotatedJson.Region.Extract
import AnnotatedJson.Proofs.Boundary

namespace AnnotatedJson

/-- A span that lies in another one. -/
structure Span.Within (inner outer : Span) : Prop where
  start_le : outer.start ≤ inner.start
  ordered : inner.start ≤ inner.stop
  stop_le : inner.stop ≤ outer.stop

namespace HostNode

/-- Induction over a tree: what holds of a node if it holds of its children, holds of all
    nodes. -/
theorem induction_on {P : HostNode → Prop} (n : HostNode)
    (h : ∀ n : HostNode, (∀ c ∈ n.children, P c) → P n) : P n :=
  @HostNode.rec P (fun ns => ∀ c ∈ ns, P c) (fun k r s ns ih => h (.node k r s ns) ih)
    (fun _ hc => absurd hc List.not_mem_nil)
    (fun _ _ hn hns => List.forall_mem_cons.2 ⟨hn, hns⟩) n

/-! ## Parts of a node -/

/-- The parts of a node are the node itself and the parts of its children. -/
inductive PartOf : HostNode → HostNode → Prop where
  | refl (n : HostNode) : PartOf n n
  | child {m c n : HostNode} : c ∈ n.children → PartOf m c → PartOf m n

section
variable {m n o : HostNode}

theorem PartOf.trans (h : PartOf m n) (h' : PartOf n o) : PartOf m o := by
  induction h' with
  | refl => exact h
  | child hc _ ih => exact .child hc ih

theorem partOf_of_mem (h : m ∈ n.children) : PartOf m n := .child h (.refl m)

theorem mem_of_field? {role : HostRole} (h : n.field? role = some m) : m ∈ n.children :=
  List.mem_of_find?_eq_some h

theorem partOf_of_firstValue? (h : firstValue? n = some m) : PartOf m n := by
  obtain ⟨d, hd, hm⟩ := Option.bind_eq_some_iff.1 h
  exact (partOf_of_mem (mem_of_field? hm)).trans (partOf_of_mem (List.mem_of_find?_eq_some hd))

theorem partOf_of_naturalTarget? (h : naturalTarget? n = some m) : PartOf m n := by
  unfold naturalTarget? at h
  split at h
  · exact partOf_of_mem (mem_of_field? h)
  · rcases Option.or_eq_some_iff.1 h with h | ⟨-, h⟩
    · exact partOf_of_mem (mem_of_field? h)
    · obtain ⟨d, hd, hm⟩ := Option.bind_eq_some_iff.1 h
      exact (partOf_of_firstValue? hm).trans (partOf_of_mem (mem_of_field? hd))
  · exact partOf_of_firstValue? h
  · exact partOf_of_firstValue? h
  · obtain ⟨e, he, hm⟩ := Option.bind_eq_some_iff.1 h
    have hmem : e ∈ n.children := List.mem_of_mem_head? (Option.eq_some_of_filter_eq_some he)
    exact (partOf_of_mem (mem_of_field? hm)).trans (partOf_of_mem hmem)
  · exact partOf_of_mem (mem_of_field? h)
  · cases h

mutual

theorem partOf_of_firstObject? (depth : Nat) : ∀ n : HostNode,
    firstObject? depth n = some o → PartOf o n
  | .node kind role span children, h => by
    rw [firstObject?] at h
    split at h
    · cases h
    · split at h
      · rw [← Option.some.inj h]
        exact .refl _
      · obtain ⟨c, hc, ho⟩ := partOf_of_firstObjectOf? (depth + 1) children h
        exact .child hc ho

theorem partOf_of_firstObjectOf? (depth : Nat) : ∀ ns : List HostNode,
    firstObjectOf? depth ns = some o → ∃ n ∈ ns, PartOf o n
  | [], h => by cases h
  | n :: ns, h => by
    have later : firstObjectOf? depth ns = some o → ∃ m ∈ n :: ns, PartOf o m := fun h => by
      obtain ⟨m, hm, ho⟩ := partOf_of_firstObjectOf? depth ns h
      exact ⟨m, List.mem_cons_of_mem n hm, ho⟩
    rw [firstObjectOf?] at h
    split at h
    · exact later h
    · split at h
      · next found hfound =>
        rw [Option.some.inj h] at hfound
        exact ⟨n, List.mem_cons_self, partOf_of_firstObject? depth n hfound⟩
      · exact later h

end

/-- **The object that an annotated node means is part of it.** -/
theorem annotated?_partOf {depth : Nat} (h : annotated? n depth = some o) : PartOf o n := by
  unfold annotated? at h
  split at h
  · next t ht =>
    rw [← Option.some.inj h]
    exact partOf_of_naturalTarget? (Option.eq_some_of_filter_eq_some ht)
  · exact partOf_of_firstObject? depth n h

end

/-! ## Trees that fit a text -/

/-- A node that fits a text: it lies between boundaries of the text, and its children lie in
    it one after the other. -/
structure Fits (cs : Text) (n : HostNode) : Prop where
  start_le_stop : n.span.start ≤ n.span.stop
  start_boundary : Text.isBoundary cs n.span.start = true
  stop_boundary : Text.isBoundary cs n.span.stop = true
  nested : ∀ c ∈ n.children, n.span.start ≤ c.span.start ∧ c.span.stop ≤ n.span.stop
  ordered : n.children.Pairwise fun a b => a.span.stop ≤ b.span.start

/-- A tree fits a text if all its nodes do. -/
def TreeFits (cs : Text) (root : HostNode) : Prop := ∀ n, PartOf n root → n.Fits cs

section
variable {cs : Text} {m n : HostNode}

theorem treeFits_iff : TreeFits cs n ↔ n.Fits cs ∧ ∀ c ∈ n.children, TreeFits cs c := by
  constructor
  · intro h
    exact ⟨h n (.refl n), fun c hc m hm => h m (.child hc hm)⟩
  · rintro ⟨hn, hc⟩ m (_ | ⟨hmem, hm⟩)
    · exact hn
    · exact hc _ hmem m hm

instance (cs : Text) (n : HostNode) : Decidable (n.Fits cs) :=
  decidable_of_iff (n.span.start ≤ n.span.stop ∧ Text.isBoundary cs n.span.start = true ∧
      Text.isBoundary cs n.span.stop = true ∧
      (∀ c ∈ n.children, n.span.start ≤ c.span.start ∧ c.span.stop ≤ n.span.stop) ∧
      n.children.Pairwise fun a b => a.span.stop ≤ b.span.start)
    ⟨fun ⟨h₁, h₂, h₃, h₄, h₅⟩ => ⟨h₁, h₂, h₃, h₄, h₅⟩, fun ⟨h₁, h₂, h₃, h₄, h₅⟩ => ⟨h₁, h₂, h₃, h₄, h₅⟩⟩

mutual

/-- Decides whether a tree fits a text. -/
def decideTree (cs : Text) : (n : HostNode) → Decidable (n.TreeFits cs)
  | .node kind role span children =>
    match decideTrees cs children with
    | isTrue hc =>
      if hn : (node kind role span children).Fits cs then isTrue (treeFits_iff.2 ⟨hn, hc⟩)
      else isFalse fun h => hn (treeFits_iff.1 h).1
    | isFalse hc => isFalse fun h => hc (treeFits_iff.1 h).2

/-- Decides whether all of some trees fit a text. -/
def decideTrees (cs : Text) : (ns : List HostNode) → Decidable (∀ n ∈ ns, n.TreeFits cs)
  | [] => isTrue (by simp)
  | n :: ns =>
    match decideTree cs n, decideTrees cs ns with
    | isTrue hn, isTrue hns => isTrue (List.forall_mem_cons.2 ⟨hn, hns⟩)
    | isFalse hn, _ => isFalse fun h => hn (List.forall_mem_cons.1 h).1
    | _, isFalse hns => isFalse fun h => hns (List.forall_mem_cons.1 h).2

end

instance (cs : Text) (n : HostNode) : Decidable (n.TreeFits cs) := decideTree cs n

theorem TreeFits.fits (h : TreeFits cs n) : n.Fits cs := h n (.refl n)

theorem TreeFits.part (h : TreeFits cs n) (hm : PartOf m n) : TreeFits cs m :=
  fun k hk => h k (hk.trans hm)

theorem TreeFits.child (h : TreeFits cs n) (hm : m ∈ n.children) : TreeFits cs m :=
  h.part (partOf_of_mem hm)

/-- The parts of a node lie in it. -/
theorem TreeFits.within (h : TreeFits cs n) (hm : PartOf m n) : m.span.Within n.span := by
  induction hm with
  | refl => exact ⟨le_rfl, h.fits.start_le_stop, le_rfl⟩
  | @child c n hc _ ih =>
    have hin := ih (h.child hc)
    obtain ⟨hs, he⟩ := h.fits.nested c hc
    exact ⟨hs.trans hin.start_le, hin.ordered, hin.stop_le.trans he⟩

theorem TreeFits.within_of_mem (h : TreeFits cs n) (hm : m ∈ n.children) :
    m.span.Within n.span := h.within (partOf_of_mem hm)

end

end HostNode

end AnnotatedJson
