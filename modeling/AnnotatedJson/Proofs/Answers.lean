/-
  Answers about a region lie in the region.

  * `Region.Shown`: a region that shows a part of its host text;
  * `Region.Shown.prepare_liesIn`, `Region.Shown.prepare_errors`: the literal of such a region lies
    in it, and so do its errors;
  * `RegionIndex.subDocument_offsetAt`: a position that a region owns has the same offset in the
    document of the region and in the host;
  * `Literal.LiesIn.hoverTarget?`, `Literal.complete_replaces`: where hover texts are shown and
    what proposals replace;
  * `LiteralMode.propertySymbols_prepare`: a schema that is put in has no symbol;
  * `LiteralMode.answers_within_region`: what the mode of annotated literals answers.
-/
import Mathlib
import AnnotatedJson.Mode.Literal
import AnnotatedJson.Proofs.Extent
import AnnotatedJson.Proofs.Lines
import AnnotatedJson.Proofs.Owners

namespace AnnotatedJson

/-! ## Regions that show a part of their host -/

/-- A region that shows a part of the host text, and something in it besides blanks.  Its
    corrections lie in it. -/
structure Region.Shown (cs : Text) (r : Region) : Prop where
  visible : ∃ t, Text.slice? cs r.span = some t ∧ ∃ c ∈ t, Text.isBlank c = false
  text_eq : ∀ t ∈ r.text, t = Text.maskPrefix cs r.span.start r.span.stop
  corrections_within : ∀ c ∈ r.corrections,
    c.span.Within r.span ∧ c.key.span.Within r.span ∧ c.value.span.Within r.span

namespace Literal

theorem insertSchema_errors (d : Literal) (uri : String) :
    (d.insertSchema uri).2.errors = d.errors := by
  unfold insertSchema
  split
  · split <;> rfl
  · rfl

theorem fillHoles_root (d : Literal) (corrections : List Correction) :
    (d.fillHoles corrections).2.root =
      d.root.map fun root => (fillNode corrections d.count root).1 := by
  unfold fillHoles
  split
  next h => rw [h]; rfl
  next h => rw [h]; rfl

theorem fillHoles_errors (d : Literal) (corrections : List Correction) :
    (d.fillHoles corrections).2.errors = d.errors := by
  unfold fillHoles
  split <;> rfl

end Literal

namespace Region

variable {cs : Text} {r : Region}

theorem Shown.maskedText (h : r.Shown cs) :
    ∃ mask t, r.maskedText cs = mask ++ t ∧ Text.bytes mask = r.span.start ∧
      Text.bytes (mask ++ t) = r.span.stop ∧ (∀ x ∈ mask, Text.isBlank x = true) ∧
      ∃ c ∈ t, Text.isBlank c = false := by
  obtain ⟨t, hslice, hvisible⟩ := h.visible
  obtain ⟨mask, hmask, hstart, hblank⟩ := Text.maskPrefix_eq hslice
  obtain ⟨a, b, -, ha, hab⟩ := Text.slice?_eq_some_iff.1 hslice
  refine ⟨mask, t, ?_, hstart, ?_, hblank, hvisible⟩
  · rw [← hmask, Region.maskedText]
    cases ht : r.text with
    | none => rfl
    | some shown => exact h.text_eq shown ht
  · rw [Text.bytes_append, hstart, ← ha]
    exact hab

theorem Shown.stop_boundary (h : r.Shown cs) : Text.isBoundary cs r.span.stop = true := by
  obtain ⟨t, hslice, -⟩ := h.visible
  obtain ⟨a, b, rfl, -, hab⟩ := Text.slice?_eq_some_iff.1 hslice
  rw [← hab, ← Text.bytes_append]
  exact Text.isBoundary_append (a ++ t) b

theorem prepare_literal (r : Region) (d : Document) (l : LiteralState) :
    (r.prepare d l).literal = ((((Literal.parse d.text l.allowComments).insertSchema
      (r.schemaUri.getD (l.settings.schemaUriFor r.label))).2.fillHoles
        r.corrections).2).dropShorthandErrors := rfl

section
variable (h : r.Shown cs) {d : Document} (hd : d.text = r.maskedText cs) (l : LiteralState)
include h hd

theorem Shown.prepare_liesIn : (r.prepare d l).literal.LiesIn r.span := by
  obtain ⟨mask, t, heq, hstart, hstop, hblank, -⟩ := h.maskedText
  have hparse : (Literal.parse d.text l.allowComments).LiesIn r.span := by
    have := Literal.parse_liesIn (t := t) hblank l.allowComments
    rwa [hstart, hstop, ← heq, ← hd] at this
  have hpointed := hparse.insertSchema (r.schemaUri.getD (l.settings.schemaUriFor r.label))
  exact Literal.LiesIn.fillHoles (fun c hc => (h.corrections_within c hc).2.2) hpointed

theorem Shown.prepare_errors :
    ∀ e ∈ (r.prepare d l).literal.errors, e.span.Within r.span := by
  obtain ⟨mask, t, heq, hstart, hstop, hblank, hvisible⟩ := h.maskedText
  intro e he
  have hparse : e ∈ (Literal.parse d.text l.allowComments).errors := by
    rw [prepare_literal] at he
    have hfilled := List.mem_of_mem_filter he
    rwa [Literal.fillHoles_errors, Literal.insertSchema_errors] at hfilled
  have := Literal.parse_errors_within hblank l.allowComments hvisible e (by rwa [← heq, ← hd])
  rwa [hstart, hstop] at this

end

end Region

namespace RegionIndex

theorem subDocument_offsetAt {x : RegionIndex} {p : Position} {r : Region}
    (hr : r.Shown x.document.text) (i : Nat) (ho : x.document.offsetAt p ≤ r.span.stop) :
    (x.subDocument i r).offsetAt p = x.document.offsetAt p := by
  obtain ⟨mask, t, heq, -, hstop, -⟩ := hr.maskedText
  exact subDocument_offsetAt_of_bytes (heq ▸ hstop) (Text.isBoundary_le hr.stop_boundary) i ho

end RegionIndex

namespace Literal

/-! ## Hovering and proposals -/

variable {d : Literal} {s : Span} {offset : Nat}

theorem hoverTarget?_shown {t : HoverTarget} (h : d.hoverTarget? offset = some t) :
    d.nodeAt? offset false = some t.shown := by
  unfold hoverTarget? at h
  obtain ⟨n, hn, h⟩ := Option.bind_eq_some_iff.1 h
  split_ifs at h
  · obtain ⟨property, -, h⟩ := Option.bind_eq_some_iff.1 h
    cases h
    exact hn
  · cases h
    exact hn

/-- A hover text is shown at a node that covers the cursor. -/
theorem LiesIn.hoverTarget? (hd : d.LiesIn s) {t : HoverTarget}
    (h : d.hoverTarget? offset = some t) :
    t.shown.span.Within s ∧ t.shown.span.start ≤ offset ∧ offset < t.shown.span.stop := by
  obtain ⟨hin, hc⟩ := hd.nodeAt? (hoverTarget?_shown h)
  have hcovers : t.shown.mark.length ≠ 0 ∧ t.shown.mark.offset ≤ offset ∧
      offset < t.shown.mark.stop := by
    simpa [Mark.covers] using hc
  exact ⟨hin, hcovers.2⟩

theorem LiesIn.completionNode? {cs : Text} {n : Node} (hd : d.LiesIn s)
    (h : d.completionNode? cs offset = some n) : n.span.Within s := by
  obtain ⟨m, hm, h⟩ := Option.bind_eq_some_iff.1 h
  rcases ite_eq_iff.1 h with ⟨-, h⟩ | ⟨-, h⟩
  · exact hd.parent? h
  · cases h
    exact (hd.nodeAt? hm).1

end Literal

namespace Text

theorem bytes_reverse (cs : Text) : bytes cs.reverse = bytes cs := by
  induction cs with
  | nil => rfl
  | cons c cs ih => simp [ih, Nat.add_comm]

theorem isWordChar_of_isBlank {c : Char} (h : isBlank c = true) : isWordChar c = false := by
  simp [isWordChar, h]

/-- The word before an offset does not reach into the mask. -/
theorem wordStart_masked {mask t : Text} (hm : ∀ x ∈ mask, isBlank x = true) {offset : Nat}
    (hlo : bytes mask ≤ offset) (hhi : offset ≤ bytes (mask ++ t)) :
    bytes mask ≤ wordStart (mask ++ t) offset ∧ wordStart (mask ++ t) offset ≤ offset := by
  unfold wordStart
  rw [Nat.min_eq_left hhi]
  dsimp only
  split
  next hb =>
    have hsplit := takeBytes_append_dropBytes offset (mask ++ t)
    obtain ⟨u, hu, -⟩ := prefix_of_bytes_le hsplit.symm (by omega)
    -- The mask is blank, so that the word lies in what follows it.
    have hmask : mask.reverse.takeWhile isWordChar = [] := by
      refine List.takeWhile_eq_nil_iff.2 fun hpos => ?_
      have hblank := hm _ (List.mem_reverse.1 (List.get_mem mask.reverse ⟨0, hpos⟩))
      rw [isWordChar_of_isBlank hblank]
      exact Bool.false_ne_true
    have hword : (takeBytes offset (mask ++ t)).reverse.takeWhile isWordChar <+: u.reverse := by
      rw [hu, List.reverse_append, List.takeWhile_append, hmask]
      split
      · simp
      · exact List.takeWhile_prefix _
    obtain ⟨v, hv⟩ := hword
    have hbytes := congrArg bytes hv
    rw [bytes_append, bytes_reverse u] at hbytes
    rw [hu, bytes_append] at hb
    omega
  next => exact ⟨hlo, le_rfl⟩

end Text

/-! ## Proposals -/

theorem overwritten_within {s : Span} {node : Option Node} {cs : Text} {offset : Nat}
    (hnode : ∀ n ∈ node, n.span.Within s) (hlo : s.start ≤ Text.wordStart cs offset)
    (hword : Text.wordStart cs offset ≤ offset) (hhi : offset ≤ s.stop) :
    (overwritten node cs offset).Within s ∧ (overwritten node cs offset).start ≤ offset ∧
      offset ≤ (overwritten node cs offset).stop := by
  have hbefore : (⟨Text.wordStart cs offset, offset⟩ : Span).Within s := ⟨hlo, hword, hhi⟩
  unfold overwritten
  dsimp only
  split
  next m a =>
    split
    next hin => exact ⟨hnode _ rfl, hin⟩
    next => exact ⟨hbefore, hword, le_rfl⟩
  next => exact ⟨hbefore, hword, le_rfl⟩

namespace CompletionItem

/-- A proposal that replaces a range. -/
def Replaces (range : Range) (item : CompletionItem) : Prop :=
  ∃ text, item.textEdit = some (.edit ⟨range, text⟩)

end CompletionItem

open CompletionItem (Replaces)

section
variable {range : Range}

theorem keyItems_replaces (root schema : Json) (addValue : Bool) (seen : List String) :
    ∀ i ∈ (keyItems root schema range addValue seen).1, Replaces range i := by
  unfold keyItems
  refine List.foldlRecOn (motive := fun found : List CompletionItem × List String =>
    ∀ i ∈ found.1, Replaces range i) _ _ (by simp) ?_
  intro found h member _
  dsimp only
  split
  · exact h
  · intro i hi
    rcases List.mem_append.1 hi with hi | hi
    · exact h i hi
    · cases List.mem_singleton.1 hi
      exact ⟨_, rfl⟩

theorem KeySite.items_replaces (site : KeySite) (d : Literal) (engine : Schema.Engine)
    (schema : Json) : ∀ i ∈ site.items d engine schema range, Replaces range i := by
  unfold KeySite.items
  dsimp only
  refine List.foldlRecOn (motive := fun found : List CompletionItem × List String =>
    ∀ i ∈ found.1, Replaces range i) _ _ (by simp) ?_
  intro found h s _ i hi
  rcases List.mem_append.1 hi with hi | hi
  · exact h i hi
  · exact keyItems_replaces schema s site.addValue found.2 i hi

theorem mem_of_mem_distinctItems {i : CompletionItem} {seen : List String}
    {is : List CompletionItem} (h : i ∈ distinctItems seen is) : i ∈ is := by
  induction is generalizing seen with
  | nil => cases h
  | cons j is ih =>
    rw [distinctItems] at h
    split at h
    · exact List.mem_cons_of_mem _ (ih h)
    · rcases List.mem_cons.1 h with rfl | h
      · exact List.mem_cons_self
      · exact List.mem_cons_of_mem _ (ih h)

theorem Schema.valueItems_replaces (schema : Json) :
    ∀ i ∈ Schema.valueItems schema range, Replaces range i := by
  intro i hi
  simp only [Schema.valueItems, Schema.enumItems, List.mem_append, List.mem_map, List.mem_mapIdx] at hi
  rcases hi with (((⟨v, -, rfl⟩ | ⟨k, hk, rfl⟩) | hi) | ⟨v, -, rfl⟩) | hi
  · exact ⟨_, rfl⟩
  · exact ⟨_, rfl⟩
  · split at hi
    · rcases List.mem_cons.1 hi with rfl | hi
      · exact ⟨_, rfl⟩
      · cases List.mem_singleton.1 hi
        exact ⟨_, rfl⟩
    · cases hi
  · exact ⟨_, rfl⟩
  · split at hi
    · cases List.mem_singleton.1 hi
      exact ⟨_, rfl⟩
    · cases hi

theorem Literal.valueItems_replaces (d : Literal) (engine : Schema.Engine) (schema : Json)
    (path : List PathStep) : ∀ i ∈ d.valueItems engine schema path range, Replaces range i := by
  intro i hi
  obtain ⟨s, -, hs⟩ := List.mem_flatMap.1 (mem_of_mem_distinctItems hi)
  exact Schema.valueItems_replaces s i hs

end

/-- Every proposal replaces the atom under the cursor or the word before it. -/
theorem Literal.complete_replaces (d : Literal) (cs : Text) (index : LineIndex) (offset : Nat)
    (engine : Schema.Engine) (schema : Json) :
    ∀ i ∈ d.complete cs index offset engine schema,
      Replaces (index.rangeOf (overwritten (d.completionNode? cs offset) cs offset)) i := by
  intro i hi
  unfold Literal.complete at hi
  dsimp only at hi
  split at hi
  next h => rw [h] at hi ⊢; exact Literal.valueItems_replaces d engine schema [] i hi
  next n h =>
    rw [h] at hi ⊢
    split at hi
    · split at hi
      · cases hi
      · exact KeySite.items_replaces _ d engine schema i hi
    · split at hi
      · exact Literal.valueItems_replaces d engine schema _ i hi
      · cases hi

namespace LiteralMode

/-! ## Symbols -/

variable {corrections : List Correction}

/-- The numbers that new nodes get show in no symbol. -/
theorem propertySymbol?_fillNode (d : Document) (label : String) (n : Node) (a b : Nat) :
    propertySymbol? d label (Literal.fillNode corrections a n).1 =
      propertySymbol? d label (Literal.fillNode corrections b n).1 := by
  cases n with
  | atom => rw [Literal.fillNode, Literal.fillNode]
  | hole m colon key =>
    rw [Literal.fillNode, Literal.fillNode]
    split <;> rfl
  | _ => rw [Literal.fillNode, Literal.fillNode]; rfl

theorem propertySymbols_fillNodes (d : Document) (label : String) (ns : List Node) (a b : Nat) :
    (Literal.fillNodes corrections a ns).1.filterMap (propertySymbol? d label) =
      (Literal.fillNodes corrections b ns).1.filterMap (propertySymbol? d label) := by
  induction ns generalizing a b with
  | nil => simp [Literal.fillNodes]
  | cons n ns ih =>
    rw [Literal.fillNodes, Literal.fillNodes]
    simp only [List.filterMap_cons]
    rw [propertySymbol?_fillNode d label n a b, ih]

variable {host : Document} {p : PreparedRegion}

theorem propertySymbols_object {m : Mark} {members : List Node}
    (h : p.literal.root = some (.object m members)) :
    propertySymbols host p = members.filterMap (propertySymbol? host p.label) := by
  unfold propertySymbols
  rw [h]

theorem propertySymbol?_schemaProperty (label : String) (id offset : Nat) (uri : String) :
    propertySymbol? host label (Literal.schemaProperty id offset uri) = none := if_pos rfl

end LiteralMode

/-- The literal of a region with its shorthand values put in place, and no schema put in. -/
def Region.bare (r : Region) (d : Document) (l : LiteralState) : PreparedRegion :=
  ⟨d, ((Literal.parse d.text l.allowComments).fillHoles r.corrections).2, r.shownLabel⟩

/-- **A schema that is put in has no symbol.** -/
theorem LiteralMode.propertySymbols_prepare (host d : Document) (r : Region) (l : LiteralState) :
    propertySymbols host (r.prepare d l) = propertySymbols host (r.bare d l) := by
  have hliteral := r.prepare_literal d l
  generalize hparse : Literal.parse d.text l.allowComments = parsed at hliteral
  have hbare : (r.bare d l).literal = (parsed.fillHoles r.corrections).2 := hparse ▸ rfl
  generalize r.schemaUri.getD (l.settings.schemaUriFor r.label) = uri at hliteral
  rcases parsed.insertSchema_cases uri with hsame | ⟨m, properties, hroot, hpointed⟩
  · have hroots : (r.prepare d l).literal.root = (r.bare d l).literal.root := by
      rw [hliteral, hbare, hsame]
      rfl
    unfold propertySymbols
    rw [hroots]
    rfl
  · have h₁ := Literal.fillHoles_root (parsed.insertSchema uri).2 r.corrections
    have h₂ := Literal.fillHoles_root parsed r.corrections
    rw [hpointed, Option.map_some, Literal.fillNode, Literal.fillNodes] at h₁
    rw [hroot, Option.map_some, Literal.fillNode] at h₂
    rw [propertySymbols_object ((congrArg Literal.root hliteral).trans h₁),
      propertySymbols_object ((congrArg Literal.root hbare).trans h₂)]
    have hinserted (next : Nat) : (Literal.fillNode r.corrections next
        (Literal.schemaProperty parsed.count m.offset uri)).1 =
          Literal.schemaProperty parsed.count m.offset uri := by
      rw [Literal.schemaProperty, Literal.fillNode, Literal.fillNode]
    rw [hinserted, List.filterMap_cons, propertySymbol?_schemaProperty]
    exact propertySymbols_fillNodes host _ properties _ _

/-! ## Answers about one region -/

namespace Region

variable {d sub : Document} {r : Region} {p : Position} (hd : d.Indexed) (hr : r.Shown d.text)
  (hsub : sub.text = r.maskedText d.text) (l : LiteralState)
include hd hr hsub

theorem Shown.hover_within {t : HoverTarget} {engine : Schema.Engine} {schema : Json} {h : Hover}
    (ht : (r.prepare sub l).literal.hoverTarget? (d.offsetAt p) = some t)
    (hh : t.hover? (r.prepare sub l).literal d.index engine schema = some h) :
    ∃ range, h.range = some range ∧ (d.spanOf range).Within r.span ∧
      (d.spanOf range).start ≤ d.offsetAt p ∧ d.offsetAt p < (d.spanOf range).stop := by
  obtain ⟨text, -, rfl⟩ := Option.map_eq_some_iff.1 hh
  obtain ⟨hin, hstart, hstop⟩ := (hr.prepare_liesIn hsub l).hoverTarget? ht
  have hle := hin.stop_le.trans (Text.isBoundary_le hr.stop_boundary)
  obtain ⟨h₁, h₂⟩ := hd.spanOf_contains hstart hstop.le hle
  exact ⟨_, rfl, hd.spanOf_within hin hr.stop_boundary, h₁, hstop.trans_le h₂⟩

theorem Shown.edit_within (hlo : r.span.start ≤ d.offsetAt p) (hhi : d.offsetAt p ≤ r.span.stop)
    {engine : Schema.Engine} {schema : Json} {item : CompletionItem}
    (hi : item ∈
      (r.prepare sub l).literal.complete sub.text d.index (d.offsetAt p) engine schema) :
    ∃ edit, item.textEdit = some (.edit edit) ∧ (d.spanOf edit.range).Within r.span ∧
      (d.spanOf edit.range).start ≤ d.offsetAt p ∧ d.offsetAt p ≤ (d.spanOf edit.range).stop := by
  obtain ⟨mask, t, heq, hstart, hstop, hblank, -⟩ := hr.maskedText
  have hword := Text.wordStart_masked hblank (hstart ▸ hlo) (hstop ▸ hhi)
  rw [← heq, ← hsub, hstart] at hword
  obtain ⟨hin, h₁, h₂⟩ := overwritten_within
    (fun n hn => (hr.prepare_liesIn hsub l).completionNode? hn) hword.1 hword.2 hhi
  have hle := hin.stop_le.trans (Text.isBoundary_le hr.stop_boundary)
  obtain ⟨h₃, h₄⟩ := hd.spanOf_contains h₁ h₂ hle
  obtain ⟨text, htext⟩ := Literal.complete_replaces _ _ _ _ _ _ item hi
  exact ⟨_, htext, hd.spanOf_within hin hr.stop_boundary, h₃, h₂.trans h₄⟩

theorem Shown.symbol_within {s : DocumentSymbol}
    (hs : s ∈ LiteralMode.propertySymbols d (r.prepare sub l)) :
    s.kind = .property ∧ s.location.uri = d.uri ∧ (d.spanOf s.location.range).Within r.span := by
  have hin := hr.prepare_liesIn hsub l
  unfold LiteralMode.propertySymbols at hs
  split at hs
  next m members hroot =>
    obtain ⟨n, hn, hs⟩ := List.mem_filterMap.1 hs
    unfold LiteralMode.propertySymbol? at hs
    split at hs
    · split_ifs at hs
      cases hs
      exact ⟨rfl, rfl, hd.spanOf_within ((hin _ hroot).child hn).within hr.stop_boundary⟩
    · cases hs
  next => cases hs

theorem Shown.diagnostic_within {g : Diagnostic}
    (hg : g ∈ (r.prepare sub l).literal.diagnostics d.index) :
    (d.spanOf g.range).Within r.span := by
  obtain ⟨e, he, rfl⟩ := List.mem_map.1 hg
  exact hd.spanOf_within (hr.prepare_errors hsub l e he) hr.stop_boundary

end Region

/-! ## Answers -/

theorem Action.lift_bind {α β : Type} (a : StateM Workspace α) (f : α → Action β) (w : Workspace) :
    ((liftM a : Action α) >>= f) w = f (a w).1 (a w).2 := rfl

namespace LiteralMode

variable {d : Document} {p : Position} {w : Workspace}

theorem preparedAt?_eq (d : Document) (p : Position) (w : Workspace) :
    (preparedAt? d p w).1 = ((Workspace.regionsOf d w).1.owner p).index?.bind
      ((Workspace.regionsOf d w).1.prepare? w.literals) := rfl

/-- A hover text comes from the target under the cursor. -/
theorem hover_cases {h : Hover} (hh : (hover d p w).1 = .ok (some h)) :
    ∃ r t engine schema, (preparedAt? d p w).1 = some r ∧
      r.literal.hoverTarget? (r.document.offsetAt p) = some t ∧
      t.hover? r.literal r.document.index engine schema = some h := by
  unfold hover at hh
  rw [Action.lift_bind] at hh
  rcases hprepared : preparedAt? d p w with ⟨_ | r, w'⟩
  · rw [hprepared] at hh
    cases hh
  · rw [hprepared] at hh
    cases ht : r.literal.hoverTarget? (r.document.offsetAt p) with
    | none =>
      simp only [ht] at hh
      cases hh
    | some t =>
      simp only [ht] at hh
      rw [Action.lift_bind] at hh
      rcases hschema : schemaOf? r.literal w' with ⟨_ | schema, w''⟩
      · rw [hschema] at hh
        cases hh
      · rw [hschema] at hh
        exact ⟨r, t, _, schema, rfl, ht, Except.ok.inj hh⟩

/-- Proposals come from the literal under the cursor. -/
theorem complete_cases {list : CompletionList} {item : CompletionItem}
    (hl : (complete d p w).1 = .ok list) (hi : item ∈ list.items) :
    ∃ r engine schema proposed, (preparedAt? d p w).1 = some r ∧
      proposed ∈ r.literal.complete r.document.text r.document.index (r.document.offsetAt p)
        engine schema ∧
      item = marked d.uri proposed := by
  unfold complete at hl
  rw [Action.lift_bind] at hl
  rcases hprepared : preparedAt? d p w with ⟨_ | r, w'⟩
  · rw [hprepared] at hl
    cases hl
    cases hi
  · rw [hprepared] at hl
    dsimp only at hl
    split at hl
    · cases hl
      cases hi
    · rw [Action.lift_bind] at hl
      rcases hschema : schemaOf? r.literal w' with ⟨_ | schema, w''⟩
      · rw [hschema] at hl
        cases hl
        cases hi
      · rw [hschema] at hl
        cases hl
        obtain ⟨proposed, hp, rfl⟩ := List.mem_map.1 hi
        exact ⟨r, _, schema, proposed, rfl, hp, rfl⟩

theorem symbols_eq (d : Document) (w : Workspace) :
    (symbols d w).1 = .ok ((Workspace.regionsOf d w).1.regions.zipIdx.flatMap fun (r, i) =>
      ⟨r.shownLabel, .module, ⟨d.uri, d.rangeOf r.span⟩, none⟩ ::
        propertySymbols d (r.prepare ((Workspace.regionsOf d w).1.subDocument i r) w.literals)) := rfl

theorem prepareAll_eq (x : RegionIndex) (l : LiteralState) :
    x.prepareAll l = x.regions.zipIdx.map fun (r, i) => r.prepare (x.subDocument i r) l := by
  have hsome : ∀ i ∈ List.range x.regions.length, x.prepare? l i =
      some ((x.regions[i]?.getD default).prepare
        (x.subDocument i (x.regions[i]?.getD default)) l) := by
    intro i hi
    simp [RegionIndex.prepare?, List.mem_range.1 hi]
  unfold RegionIndex.prepareAll
  rw [List.filterMap_congr hsome, ← Function.comp_def some, List.filterMap_eq_map]
  refine List.ext_getElem (by simp) fun i h₁ h₂ => ?_
  have hi : i < x.regions.length := by simpa using h₁
  simp [hi]

theorem validate_eq (d : Document) (w : Workspace) :
    (validate d w).1 = .ok (if w.literals.validate then
      (Workspace.regionsOf d w).1.regions.zipIdx.flatMap fun (r, i) =>
        (r.prepare ((Workspace.regionsOf d w).1.subDocument i r) w.literals).literal.diagnostics
          d.index
      else []) := by
  have hrun : (validate d w).1 = .ok (if w.literals.validate then
      ((Workspace.regionsOf d w).1.prepareAll w.literals).flatMap fun r =>
        r.literal.diagnostics d.index else []) := by
    show ((if w.literals.validate then _ else _ : Action (List Diagnostic)) w).1 = _
    split <;> rfl
  rw [hrun, prepareAll_eq, List.flatMap_map]

/-- **Answers lie in their regions.**  A hover text is shown around the cursor, in the region that
    owns the cursor, and a proposal replaces a part of that region around the cursor.  The symbols
    of the properties of a region and the diagnostics about it lie in the region, and the symbols
    are those of the literal before a schema was put in. -/
theorem answers_within_region (d : Document) (hd : d.Indexed) (w : Workspace) (x : RegionIndex)
    (hx : (Workspace.regionsOf d w).1 = x) (hdoc : x.document = d)
    (hr : ∀ r ∈ x.regions, r.Shown d.text) :
    (∀ p i r, x.owner p = .embedded i r →
      (∀ h, (Mode.literal.hover d p w).1 = .ok (some h) → ∃ range, h.range = some range ∧
        (d.spanOf range).Within r.span ∧
        (d.spanOf range).start ≤ d.offsetAt p ∧ d.offsetAt p < (d.spanOf range).stop) ∧
      (∀ list, (Mode.literal.complete d p w).1 = .ok list → ∀ item ∈ list.items,
        ∃ edit, item.textEdit = some (.edit edit) ∧ (d.spanOf edit.range).Within r.span ∧
          (d.spanOf edit.range).start ≤ d.offsetAt p ∧
          d.offsetAt p ≤ (d.spanOf edit.range).stop)) ∧
    (Mode.literal.symbols d w).1 = .ok (x.regions.zipIdx.flatMap fun (r, i) =>
      ⟨r.shownLabel, .module, ⟨d.uri, d.rangeOf r.span⟩, none⟩ ::
        propertySymbols d (r.prepare (x.subDocument i r) w.literals)) ∧
    (Mode.literal.validate d w).1 = .ok (if w.literals.validate then
      x.regions.zipIdx.flatMap fun (r, i) =>
        (r.prepare (x.subDocument i r) w.literals).literal.diagnostics d.index
      else []) ∧
    (∀ (i : Nat) (r : Region), x.regions[i]? = some r →
      (∀ s ∈ propertySymbols d (r.prepare (x.subDocument i r) w.literals),
        s.kind = .property ∧ s.location.uri = d.uri ∧
          (d.spanOf s.location.range).Within r.span) ∧
      propertySymbols d (r.prepare (x.subDocument i r) w.literals) =
        propertySymbols d (r.bare (x.subDocument i r) w.literals) ∧
      (∀ g ∈ (r.prepare (x.subDocument i r) w.literals).literal.diagnostics d.index,
        (d.spanOf g.range).Within r.span)) := by
  refine ⟨fun p i r ho => ?_, hx ▸ symbols_eq d w, hx ▸ validate_eq d w, fun i r hi => ?_⟩
  · obtain ⟨hi, hlo, hhi⟩ := RegionIndex.owner_embedded ho
    have hshown := hr r (List.mem_of_getElem? hi)
    have hsub : (x.subDocument i r).text = r.maskedText d.text := hdoc ▸ rfl
    have hoffset : (x.subDocument i r).offsetAt p = d.offsetAt p := by
      rw [← hdoc] at hshown ⊢
      exact RegionIndex.subDocument_offsetAt hshown i hhi
    have hindex : (x.subDocument i r).index = d.index := hdoc ▸ rfl
    have hprepared : (preparedAt? d p w).1 = some (r.prepare (x.subDocument i r) w.literals) := by
      rw [preparedAt?_eq, hx, ho]
      simp [RegionAt.index?, RegionIndex.prepare?, hi]
    rw [hdoc] at hlo hhi
    constructor
    · intro h hh
      obtain ⟨r', t, engine, schema, hr', ht, hhover⟩ := hover_cases hh
      cases hprepared.symm.trans hr'
      change (r.prepare (x.subDocument i r) w.literals).literal.hoverTarget?
        ((x.subDocument i r).offsetAt p) = some t at ht
      change t.hover? _ (x.subDocument i r).index engine schema = some h at hhover
      rw [hoffset] at ht
      rw [hindex] at hhover
      exact hshown.hover_within hd hsub w.literals ht hhover
    · intro list hl item hitem
      obtain ⟨r', engine, schema, proposed, hr', hp, rfl⟩ := complete_cases hl hitem
      cases hprepared.symm.trans hr'
      change proposed ∈ Literal.complete _ (x.subDocument i r).text (x.subDocument i r).index
        ((x.subDocument i r).offsetAt p) engine schema at hp
      rw [hoffset, hindex] at hp
      obtain ⟨edit, hedit, hwithin⟩ := hshown.edit_within hd hsub w.literals hlo hhi hp
      exact ⟨edit, hedit, hwithin⟩
  · have hshown := hr r (List.mem_of_getElem? hi)
    have hsub : (x.subDocument i r).text = r.maskedText d.text := hdoc ▸ rfl
    exact ⟨fun s hs => hshown.symbol_within hd hsub w.literals hs,
      propertySymbols_prepare d _ r w.literals,
      fun g hg => hshown.diagnostic_within hd hsub w.literals hg⟩

/-- A literal with a value in single quotes, after a character of two bytes. -/
def quotedHost : Document :=
  .ofText ⟨['f', 'i', 'l', 'e'], some {}, .segments [['a', '.', 't', 's']], none, none⟩ "typescript" 1
    ['é', '=', '{', '"', 'a', '"', ':', '1', ',', 'b', ':', '\'', 'c', '\'', '}']

def quotedRegion : Region where
  span := ⟨3, 16⟩
  language := literalLanguage
  kind := .custom
  schemaUri := some "s"
  corrections := [⟨⟨10, 15⟩, ⟨⟨10, 11⟩, "b"⟩, ⟨⟨12, 15⟩, "c"⟩⟩]

/-- A workspace that finds the region and knows its schema. -/
def quotedWorkspace : Workspace :=
  { Workspace.ofSettings {} fun uri => .error (.unsupportedSchemaUri uri) with
    findRegions := fun _ _ => [quotedRegion]
    literals :=
      { validate := true
        schemas :=
          { inline := [("s",
            .object [("properties", .object [("a", .object [("title", .string "A")]),
            ("b", .object [("enum", .array [.string "c"])])])])] } } }

theorem answers_within_region_quoted :
    (Workspace.regionsOf quotedHost quotedWorkspace).1 = ⟨quotedHost, [quotedRegion]⟩ ∧
    quotedRegion.Shown quotedHost.text ∧
    (Mode.literal.hover quotedHost ⟨0, 4⟩ quotedWorkspace).1.toOption =
      some (some ⟨.markdown "**A**", some ⟨⟨0, 3⟩, ⟨0, 6⟩⟩⟩) ∧
    (∀ h, (Mode.literal.hover quotedHost ⟨0, 4⟩ quotedWorkspace).1 = .ok (some h) →
      ∃ range, h.range = some range ∧ (quotedHost.spanOf range).Within quotedRegion.span) ∧
    (∀ list, (Mode.literal.complete quotedHost ⟨0, 12⟩ quotedWorkspace).1 = .ok list →
      ∀ item ∈ list.items, ∃ edit, item.textEdit = some (.edit edit) ∧
        (quotedHost.spanOf edit.range).Within quotedRegion.span) ∧
    (propertySymbols quotedHost (quotedRegion.prepare
      (RegionIndex.subDocument ⟨quotedHost, [quotedRegion]⟩ 0 quotedRegion)
        quotedWorkspace.literals)).map DocumentSymbol.name = ["a", "b"] := by
  have hregions : (Workspace.regionsOf quotedHost quotedWorkspace).1 =
      ⟨quotedHost, [quotedRegion]⟩ := by
    change RegionIndex.ofRegions quotedHost [quotedRegion] = _
    simp [RegionIndex.ofRegions]
  have hshown : quotedRegion.Shown quotedHost.text := by
    refine ⟨⟨quotedHost.text.drop 2, by decide, '{', by decide, by decide⟩,
      by simp [quotedRegion], ?_⟩
    intro c hc
    cases List.mem_singleton.1 hc
    exact ⟨⟨by decide, by decide, by decide⟩, ⟨by decide, by decide, by decide⟩,
      ⟨by decide, by decide, by decide⟩⟩
  obtain ⟨hanswers, -⟩ := answers_within_region quotedHost rfl quotedWorkspace _ hregions rfl
    fun r hr => List.mem_singleton.1 hr ▸ hshown
  refine ⟨hregions, hshown, by decide +kernel, fun h hh => ?_, fun list hl item hi => ?_,
    by decide +kernel⟩
  · obtain ⟨range, hrange, hwithin, -⟩ := (hanswers ⟨0, 4⟩ 0 quotedRegion rfl).1 h hh
    exact ⟨range, hrange, hwithin⟩
  · obtain ⟨edit, hedit, hwithin, -⟩ := (hanswers ⟨0, 12⟩ 0 quotedRegion rfl).2 list hl item hi
    exact ⟨edit, hedit, hwithin⟩

end LiteralMode

end AnnotatedJson
