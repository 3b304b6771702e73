/-
  Knowing more of a document finds fewer schemas.

  * `Schema.Met`: the schemas that a walk through a root schema can meet, and
    `Schema.Unconditional`: the keyword `if` occurs in none of them;
  * `Fades`, `PathStep.Fades`: less is known of a node, or of the node of a step;
  * `brought_subset`, `expandTo_subset`, `advance_subset`: what is found at one value and one
    step further is found again when less is known;
  * `along_narrows`: so is what is found at the end of a path.
-/
import Mathlib
import AnnotatedJson.Proofs.Navigation

namespace AnnotatedJson

/-- What is known of a node is forgotten or not. -/
def Fades (node node' : Option Node) : Prop := node' = node ∨ node' = none

/-- The node of a step is forgotten or not. -/
structure PathStep.Fades (s s' : PathStep) : Prop where
  segment : s'.segment = s.segment
  node : AnnotatedJson.Fades s.node s'.node

namespace Schema

variable {engine : Engine} {root : Json} {node node' : Option Node} {l c t : Located}

/-! ## Schemas that can be met -/

/-- The schemas of a root schema: itself, the targets of references, the members of the keywords
    that combine schemas, and the schemas of keys and indices. -/
inductive Met (engine : Engine) (root : Json) : Located → Prop
  | root : Met engine root (.root root)
  | target {l t : Located} (hl : Met engine root l) (h : follow? root l.value = some t) :
    Met engine root t
  | combined {l c : Located} {keyword : String} (hl : Met engine root l)
    (hk : keyword ∈ ["allOf", "anyOf", "oneOf"]) (h : Lists l keyword c) : Met engine root c
  | child {l c : Located} {s : Segment} (hl : Met engine root l) (h : Child engine l s c) :
    Met engine root c

/-- The keyword `if` occurs in no schema.  It may be the name of a property. -/
def Unconditional (engine : Engine) (root : Json) : Prop :=
  ∀ l, Met engine root l → l.member? "if" = none

theorem Met.within (h : Met engine root l) : l.Within root := by
  induction h with
  | root => exact Located.within_root root
  | target _ h => exact follow?_within h
  | combined _ _ h ih => exact h.within ih
  | child _ h ih => exact h.within ih

/-- A root schema in which nothing is named `if` is unconditional. -/
theorem unconditional_of_inner (h : ∀ v ∈ root.inner, (v.member? "if").isNone = true) :
    Unconditional engine root := by
  intro l hl
  rw [Located.member?, Option.isNone_iff_eq_none.1 (h l.value hl.within.mem_inner)]
  rfl

theorem Met.chase? (n : Nat) (hl : Met engine root l) :
    Met engine root ((chase? root n l.value).getD l) := by
  induction n generalizing l with
  | zero => exact hl
  | succ n ih =>
    rw [Schema.chase?]
    cases hf : follow? root l.value with
    | none => exact hl
    | some t => exact ih (hl.target hf)

theorem Met.resolve (hl : Met engine root l) : Met engine root (resolve root l) :=
  hl.chase? maxDepth

/-! ## One value -/

theorem chosen_subset (h : Fades node node') (alternatives : List Located) :
    chosen root node alternatives ⊆ chosen root node' alternatives := by
  rcases h with rfl | rfl
  · exact List.Subset.refl _
  cases node with
  | none => exact List.Subset.refl _
  | some n =>
    unfold chosen
    dsimp only
    split
    · exact List.Subset.refl _
    · exact List.filter_sublist.subset

/-- Only a condition brings more when more is known. -/
theorem brought_subset (h : Fades node node') (hif : l.member? "if" = none) :
    brought root node l ⊆ brought root node' l := by
  have hbranch : branch root node l = [] := by
    unfold branch
    rw [hif]
  intro c hc
  unfold brought at hc ⊢
  rw [hbranch, List.append_nil] at hc
  simp only [List.mem_append] at hc ⊢
  rcases hc with (hc | hc) | hc
  · exact .inl (.inl (.inl hc))
  · exact .inl (.inl (.inr (chosen_subset h _ hc)))
  · exact .inl (.inr (chosen_subset h _ hc))

theorem Met.brought (hl : Met engine root l) (hif : l.member? "if" = none)
    (hc : c ∈ brought root node l) : Met engine root c := by
  have hlists : ∃ keyword ∈ ["allOf", "anyOf", "oneOf"], Lists l keyword c := by
    cases mem_brought_iff.1 (brought_subset (.inr rfl) hif hc) with
    | allOf h => exact ⟨"allOf", by simp, h⟩
    | anyOf h => exact ⟨"anyOf", by simp, h.1⟩
    | oneOf h => exact ⟨"oneOf", by simp, h.1⟩
    | consequence _ hn | alternative _ hn => cases hn
  obtain ⟨keyword, hk, h⟩ := hlists
  exact hl.combined hk h

section Walk

variable (hif : Unconditional engine root)
include hif

/-- By induction on the depth, which is the same whatever is known. -/
theorem expandTo_subset (h : Fades node node') (d : Nat) (hl : Met engine root l) :
    expandTo root node d l ⊆ expandTo root node' d l := by
  induction d generalizing l with
  | zero => exact List.Subset.refl _
  | succ d ih =>
    rw [expandTo, expandTo]
    split
    · dsimp only
      split
      · have hr := hl.resolve
        refine List.cons_subset_cons _ fun t ht => ?_
        obtain ⟨c, hc, ht⟩ := List.mem_flatMap.1 ht
        have hcmet := hr.brought (hif _ hr) hc
        exact List.mem_flatMap.2 ⟨c, brought_subset h (hif _ hr) hc, ih hcmet ht⟩
      · exact List.Subset.refl _
    · exact List.Subset.refl _

theorem Met.expandTo (d : Nat) (hl : Met engine root l) (ht : t ∈ expandTo root node d l) :
    Met engine root t := by
  induction d generalizing l with
  | zero => cases ht
  | succ d ih =>
    rw [Schema.expandTo] at ht
    split at ht
    · dsimp only at ht
      split at ht
      · have hr := hl.resolve
        rcases List.mem_cons.1 ht with rfl | ht
        · exact hr
        · obtain ⟨c, hc, ht⟩ := List.mem_flatMap.1 ht
          exact ih (hr.brought (hif _ hr) hc) ht
      · cases ht
    · cases ht

/-! ## One step further -/

variable (hroot : root.Keyed) {current current' : List Located}
  (hcurrent : ∀ l ∈ current, Met engine root l)
  (hcurrent' : ∀ l ∈ current', Met engine root l) {s s' : PathStep}
include hroot hcurrent

theorem met_step (s : PathStep) :
    ∀ t ∈ current.flatMap (fun l => (children engine l s.segment).flatMap (expand root s.node)),
      Met engine root t := by
  intro t ht
  obtain ⟨l, hl, ht⟩ := List.mem_flatMap.1 ht
  obtain ⟨c, hc, ht⟩ := List.mem_flatMap.1 ht
  have hlmet := hcurrent l hl
  exact (hlmet.child ((mem_children_iff hroot hlmet.within).1 hc)).expandTo hif (maxDepth + 1) ht

theorem met_advance (s : PathStep) : ∀ t ∈ advance engine root current s, Met engine root t :=
  fun t ht => met_step hif hroot hcurrent s t (mem_of_mem_distinct ht).1

include hcurrent'

theorem advance_subset (hsub : current ⊆ current') (hs : s.Fades s') :
    advance engine root current s ⊆ advance engine root current' s' := by
  intro t ht
  -- Leaving out repetitions loses no place, so it is enough to find the schema before that.
  have hwithin := fun u hu => (met_step hif hroot hcurrent' s' u hu).within
  refine (mem_distinct_iff hwithin).2 ?_
  obtain ⟨l, hl, ht⟩ := List.mem_flatMap.1 (mem_of_mem_distinct ht).1
  obtain ⟨c, hc, ht⟩ := List.mem_flatMap.1 ht
  have hlmet := hcurrent l hl
  have hcmet := hlmet.child ((mem_children_iff hroot hlmet.within).1 hc)
  refine List.mem_flatMap.2 ⟨l, hsub hl, List.mem_flatMap.2 ⟨c, ?_, ?_⟩⟩
  · rw [hs.segment]
    exact hc
  · exact expandTo_subset hif hs.node (maxDepth + 1) hcmet ht

/-- By induction on the path, from any schemas to start with. -/
theorem foldl_advance_subset (hsub : current ⊆ current') {path path' : List PathStep}
    (hpath : List.Forall₂ PathStep.Fades path path') :
    path.foldl (advance engine root) current ⊆ path'.foldl (advance engine root) current' := by
  induction hpath generalizing current current' with
  | nil => exact hsub
  | @cons s s' path path' hs _ ih =>
    exact ih (met_advance hif hroot hcurrent s) (met_advance hif hroot hcurrent' s')
      (advance_subset hif hroot hcurrent hcurrent' hsub hs)

end Walk

/-! ## Paths -/

/-- **Knowing more finds fewer schemas.**  In a root schema without conditions, every schema that is
    found at the end of a path is found again, at the same place, when the nodes of any steps are
    forgotten, and that of the document too or not. -/
theorem along_narrows (engine : Engine) (root : Json) (hroot : root.Keyed)
    (hif : Unconditional engine root)
    {document document' : Option Node} (hdocument : Fades document document')
    {path path' : List PathStep} (hpath : List.Forall₂ PathStep.Fades path path') :
    along engine root document path ⊆ along engine root document' path' := by
  have hmet (node : Option Node) : ∀ l ∈ expand root node (.root root), Met engine root l :=
    fun l hl => Met.root.expandTo hif (maxDepth + 1) hl
  exact foldl_advance_subset hif hroot (hmet document) (hmet document')
    (expandTo_subset hif hdocument (maxDepth + 1) .root) hpath

/-- The first value of the body of a page, of which nothing is known. -/
def somethingInPage : List PathStep := [⟨.key "body", none⟩, ⟨.index 0, none⟩]

theorem along_narrows_form :
    (along Pattern.engine pageSchema none formInPage).map Located.steps =
      [[], [.index 1, .key "anyOf"]] ∧
    (along Pattern.engine pageSchema none somethingInPage).map Located.steps =
      [[], [.index 0, .key "anyOf"], [.index 1, .key "anyOf"]] ∧
    along Pattern.engine pageSchema none formInPage ⊆ along Pattern.engine pageSchema none
      somethingInPage := by
  have hroot : pageSchema.Keyed := by decide +kernel
  have hif : Unconditional Pattern.engine pageSchema := unconditional_of_inner (by decide +kernel)
  have hpath : List.Forall₂ PathStep.Fades formInPage somethingInPage :=
    .cons ⟨rfl, .inl rfl⟩ (.cons ⟨rfl, .inr rfl⟩ .nil)
  exact ⟨by decide +kernel, by decide +kernel, along_narrows Pattern.engine pageSchema hroot hif (.inl rfl) hpath⟩

end Schema

end AnnotatedJson
