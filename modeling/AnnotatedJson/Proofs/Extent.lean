/-
  Literals that lie in a span.

  * `Node.LiesIn`: a node and all nodes under it lie in a span;
  * `Node.LiesIn.deepest`, `Node.LiesIn.find?`, `Node.LiesIn.parent?`: so does every node that is
    looked up;
  * `Literal.LiesIn.insertSchema`, `Literal.LiesIn.fillHoles`: repairs keep a literal in its span;
  * `Literal.parse_liesIn`, `Literal.parse_errors_within`: a parsed text that is masked lies in the
    part that is shown, and so do its errors.
-/
import Mathlib
import AnnotatedJson.Proofs.Deepest
import AnnotatedJson.Proofs.HostTree
import AnnotatedJson.Proofs.Masking

namespace AnnotatedJson

namespace Node

/-! ## Nodes in a span -/

/-- A node and all nodes under it lie in a span. -/
def LiesIn (s : Span) (n : Node) : Prop := ∀ parent, ∀ e ∈ n.listing parent, e.2.span.Within s

variable {s : Span} {n m : Node}

theorem liesIn_iff : n.LiesIn s ↔ n.span.Within s ∧ ∀ c ∈ n.children, c.LiesIn s := by
  constructor
  · intro h
    refine ⟨h none _ (mem_listing_self none n), fun c hc parent e he => ?_⟩
    -- The list under a child differs from the child's own list in the recorded parent only.
    rw [listing_eq] at he
    rcases List.mem_cons.1 he with rfl | he
    · exact h none (some n.id, c) (mem_listing_of_mem_child hc (mem_listing_self _ c))
    · refine h none e (mem_listing_of_mem_child hc ?_)
      rw [listing_eq]
      exact List.mem_cons_of_mem _ he
  · rintro ⟨hn, hc⟩ parent e he
    rw [listing_eq] at he
    rcases List.mem_cons.1 he with rfl | he
    · exact hn
    · obtain ⟨c, hmem, he⟩ := mem_listingOf.1 he
      exact hc c hmem _ e he

theorem LiesIn.within (h : n.LiesIn s) : n.span.Within s := (liesIn_iff.1 h).1

theorem LiesIn.child {c : Node} (h : n.LiesIn s) (hc : c ∈ n.children) : c.LiesIn s :=
  (liesIn_iff.1 h).2 c hc

theorem span_within_iff : n.span.Within s ↔ s.start ≤ n.offset ∧ n.stop ≤ s.stop :=
  ⟨fun h => ⟨h.start_le, h.stop_le⟩, fun h => ⟨h.1, Nat.le_add_right _ _, h.2⟩⟩

theorem liesIn_of_fits {cs : Text} (h : ∀ parent, ∀ e ∈ n.listing parent, e.2.Fits cs) {lo : Nat}
    (hlo : lo ≤ n.offset) : n.LiesIn ⟨lo, Text.bytes cs⟩ := by
  intro parent e he
  have hin := within_of_fits (h parent) he
  exact span_within_iff.2 ⟨hlo.trans hin.1, (h parent e he).within⟩

/-! ## Looking nodes up -/

section
variable {offset : Nat} {right : Bool}

theorem exists_of_deepestOf {ns : List Node} (h : deepestOf offset right ns = some m) :
    ∃ n ∈ ns, n.deepest offset right = some m := by
  induction ns with
  | nil => simp [deepestOf] at h
  | cons n ns ih =>
    rw [deepestOf] at h
    split at h
    · cases h
    · split at h
      next hn => exact ⟨n, List.mem_cons_self, hn.trans h⟩
      next =>
        obtain ⟨c, hc, hm⟩ := ih h
        exact ⟨c, List.mem_cons_of_mem _ hc, hm⟩

/-- The smallest node at an offset is the node itself or the smallest under one of its
    children. -/
theorem deepest_cases (h : n.deepest offset right = some m) :
    m = n ∧ n.mark.covers offset right = true ∨
      ∃ c ∈ n.children, c.deepest offset right = some m := by
  rw [deepest_eq] at h
  split at h
  next hc =>
    cases hd : deepestOf offset right n.children with
    | none => rw [hd] at h; cases h; exact .inl ⟨rfl, hc⟩
    | some found => rw [hd] at h; cases h; exact .inr (exists_of_deepestOf hd)
  next => cases h

theorem LiesIn.deepest (h : n.LiesIn s) (hm : n.deepest offset right = some m) :
    m.LiesIn s ∧ m.mark.covers offset right = true := by
  induction n using induction_on with
  | h n ih =>
    rcases deepest_cases hm with ⟨rfl, hc⟩ | ⟨c, hc, hm⟩
    · exact ⟨h, hc⟩
    · exact ih c hc (h.child hc) hm

end

theorem LiesIn.find? (h : n.LiesIn s) {id : Nat} (hm : n.find? id = some m) : m.span.Within s := by
  obtain ⟨e, he, rfl⟩ := Option.map_eq_some_iff.1 hm
  exact h none e (List.mem_of_find?_eq_some he)

theorem LiesIn.parent? (h : n.LiesIn s) {id : Nat} (hm : n.parent? id = some m) :
    m.span.Within s := by
  obtain ⟨e, _, hm⟩ := Option.bind_eq_some_iff.1 hm
  obtain ⟨parent, _, hm⟩ := Option.bind_eq_some_iff.1 hm
  exact h.find? hm

end Node

namespace Literal

/-! ## Literals in a span -/

/-- All nodes of a literal lie in a span. -/
def LiesIn (s : Span) (d : Literal) : Prop := ∀ r ∈ d.root, r.LiesIn s

variable {s : Span} {d : Literal} {n : Node}

theorem LiesIn.nodeAt? (h : d.LiesIn s) {offset : Nat} {right : Bool}
    (hn : d.nodeAt? offset right = some n) :
    n.span.Within s ∧ n.mark.covers offset right = true := by
  obtain ⟨r, hr, hn⟩ := Option.bind_eq_some_iff.1 hn
  obtain ⟨hin, hc⟩ := (h r hr).deepest hn
  exact ⟨hin.within, hc⟩

theorem LiesIn.parent? (h : d.LiesIn s) {m : Node} (hn : d.parent? m = some n) : n.span.Within s := by
  obtain ⟨r, hr, hn⟩ := Option.bind_eq_some_iff.1 hn
  exact (h r hr).parent? hn

/-! ## Repairs -/

theorem LiesIn.insertSchema (h : d.LiesIn s) (uri : String) : (d.insertSchema uri).2.LiesIn s := by
  rcases d.insertSchema_cases uri with hsame | ⟨m, properties, hroot, hpointed⟩
  · rwa [hsame]
  · have hobject := h _ hroot
    have hm := Node.span_within_iff.1 hobject.within
    -- The new nodes have no extent and lie at the start of the object.
    have hempty (n : Node) (hn : n.offset = m.offset) (hl : n.stop = m.offset) :
        n.span.Within s := by
      have hle : m.offset ≤ m.stop := Nat.le_add_right _ _
      exact Node.span_within_iff.2 ⟨hn ▸ hm.1, hl ▸ hle.trans hm.2⟩
    intro r hr
    rw [hpointed] at hr
    cases hr
    refine Node.liesIn_iff.2 ⟨hobject.within, fun c hc => ?_⟩
    rcases List.mem_cons.1 hc with rfl | hc
    · refine Node.liesIn_iff.2 ⟨hempty _ rfl rfl, fun c hc => ?_⟩
      rcases List.mem_cons.1 hc with rfl | hc
      · exact Node.liesIn_iff.2 ⟨hempty _ rfl rfl, by simp [Node.children]⟩
      · cases List.mem_singleton.1 hc
        exact Node.liesIn_iff.2 ⟨hempty _ rfl rfl, by simp [Node.children]⟩
    · exact hobject.child hc

variable {corrections : List Correction}

theorem fillNodes_liesIn {ns : List Node}
    (h : ∀ n ∈ ns, ∀ next, (fillNode corrections next n).1.LiesIn s) (next : Nat) :
    ∀ n ∈ (fillNodes corrections next ns).1, n.LiesIn s := by
  induction ns generalizing next with
  | nil => simp [fillNodes]
  | cons n ns ih =>
    obtain ⟨hn, hns⟩ := List.forall_mem_cons.1 h
    rw [fillNodes]
    exact List.forall_mem_cons.2 ⟨hn next, ih hns _⟩

/-- A hole that is filled reaches as far as the hole and its value do. -/
theorem fill_liesIn {m : Mark} {colon : Option Nat} {key : Node} {c : Correction}
    (h : (Node.hole m colon key).LiesIn s) (hc : c.value.span.Within s) (id : Nat) :
    (fill m colon key c id).LiesIn s := by
  obtain ⟨hstart, hstop⟩ := Node.span_within_iff.1 h.within
  obtain ⟨hlo, hordered, hhi⟩ := hc
  simp only [Node.offset, Node.stop, Node.mark, Mark.stop] at hstart hstop
  refine Node.liesIn_iff.2 ⟨Node.span_within_iff.2 ⟨hstart, ?_⟩, fun n hn => ?_⟩
  · simp only [Node.stop, fill, Node.mark, Mark.stop]
    omega
  · rcases List.mem_cons.1 hn with rfl | hn
    · exact h.child (List.mem_singleton_self _)
    · cases List.mem_singleton.1 hn
      refine Node.liesIn_iff.2 ⟨Node.span_within_iff.2 ⟨hlo, ?_⟩, by simp [Node.children]⟩
      simp only [Node.stop, Node.mark, Mark.stop]
      omega

section
variable (hc : ∀ c ∈ corrections, c.value.span.Within s)
include hc

theorem fillNode_liesIn (h : n.LiesIn s) (next : Nat) : (fillNode corrections next n).1.LiesIn s := by
  induction n using Node.induction_on generalizing next with
  | h n ih =>
    cases n with
    | atom => rw [fillNode]; exact h
    | array m items | object m items =>
      rw [fillNode]
      exact Node.liesIn_iff.2 ⟨h.within,
        fillNodes_liesIn (fun c hmem next => ih c hmem (h.child hmem) next) next⟩
    | property m colon key value =>
      rw [fillNode]
      have hkey : key.LiesIn s := h.child List.mem_cons_self
      have hvalue := ih value (by simp [Node.children]) (h.child (by simp [Node.children])) next
      refine Node.liesIn_iff.2 ⟨h.within, fun c hmem => ?_⟩
      rcases List.mem_cons.1 hmem with rfl | hmem
      · exact hkey
      · cases List.mem_singleton.1 hmem
        exact hvalue
    | hole m colon key =>
      rw [fillNode]
      split
      next c hfound =>
        exact fill_liesIn h (hc c (List.mem_reverse.1 (List.mem_of_find?_eq_some hfound))) next
      next => exact h

theorem LiesIn.fillHoles (h : d.LiesIn s) : (d.fillHoles corrections).2.LiesIn s := by
  unfold Literal.fillHoles
  split
  · exact h
  next root hroot =>
    rintro r ⟨⟩
    exact fillNode_liesIn hc (h root hroot) d.count

end

end Literal

/-! ## Masked texts -/

theorem Token.start_of_masked {mask : Text} (hm : ∀ x ∈ mask, isGap x = true) (cs : Text) :
    ∀ t ∈ scan (mask ++ cs), Text.bytes mask ≤ t.span.start := by
  obtain ⟨t, us, b, -, hscan⟩ := (scans_scan cs).masked hm
  intro u hu
  rw [hscan] at hu
  rcases List.mem_cons.1 hu with rfl | hu
  · exact Nat.le_add_left _ _
  · obtain ⟨v, -, rfl⟩ := List.mem_map.1 hu
    exact Nat.le_add_left _ _

theorem Cursor.Place.start_le {ctx : ParseContext} {all : List Token} {s : Span} {lo : Nat}
    (h : Place ctx all s) (hall : ∀ t ∈ all, lo ≤ t.span.start) (hm : lo ≤ ctx.endMark.start) :
    lo ≤ s.start := by
  cases h with
  | token ht => exact hall _ ht
  | shown ht => exact hall _ ht
  | comma ht => exact hall _ ht
  | endMark => exact hm

namespace Literal

section
variable {mask t : Text} (hm : ∀ x ∈ mask, Text.isBlank x = true) (allow : Bool)
include hm

theorem gap_of_blank : ∀ x ∈ mask, Token.isGap x = true := fun x hx => by simp [Token.isGap, hm x hx]

theorem parse_liesIn : (parse (mask ++ t) allow).LiesIn ⟨Text.bytes mask, Text.bytes (mask ++ t)⟩ := by
  obtain ⟨out, q, h, he⟩ := parse_eq (mask ++ t) allow
  have hlaid := h.laid (opening_on (mask ++ t) allow)
  rw [he]
  intro r hr
  have hmem : r ∈ out := List.mem_of_mem_head? hr
  have hstart :
      Text.bytes mask ≤ (opening (context (mask ++ t) allow) (Token.scan (mask ++ t))).start :=
    Token.start_of_masked (gap_of_blank hm) t _
      (opening_subset (mask ++ t) allow (List.mem_cons_self ..))
  refine Node.liesIn_of_fits (fun parent e hmem' => ?_) (hstart.trans (hlaid.bounds r hmem).1)
  exact hlaid.fits parent e (Node.mem_listingOf.2 ⟨r, hmem, hmem'⟩)

theorem parse_errors_within (ht : ∃ c ∈ t, Text.isBlank c = false) :
    ∀ e ∈ (parse (mask ++ t) allow).errors,
      e.span.Within ⟨Text.bytes mask, Text.bytes (mask ++ t)⟩ := by
  obtain ⟨out, q, h, he⟩ := parse_eq (mask ++ t) allow
  rw [he]
  intro e hmem
  have hplace := errors_ofReading h hmem
  have hmark : Text.bytes mask ≤ (context (mask ++ t) allow).endMark.start := by
    rw [context, endMark_masked hm ht]
    exact Nat.le_add_left _ _
  obtain ⟨hstop, hlt⟩ := hplace.within (scan_placed (mask ++ t)) rfl
  refine ⟨hplace.start_le (Token.start_of_masked (gap_of_blank hm) t) hmark, ?_, hstop⟩
  rcases hlt with hlt | ⟨-, heq⟩
  · exact hlt.le
  · exact heq.le

end

end Literal

end AnnotatedJson
