/-
  Which objects become regions: those that a comment announces, and no others.

  A node is named by its address, the child indices on the way down from the root; addresses in
  lexicographic order are the nodes in document order.

  * `Annotates` says without the traversal when a comment annotates a node: it is the last one
    with a bound label in the longest run of comments right before the node;
  * `annotation?_eq_some_iff`: the comments that the traversal keeps decide just that;
  * `Marked` and `Reached` say which addresses hold an annotated node with an object, and under
    which the traversal looks;
  * `Region.ofTree_gated`: the regions are those of the marked addresses under reached ones,
    one for each, in document order.
-/
import Mathlib
import AnnotatedJson.Proofs.HostTree

namespace AnnotatedJson

/-! ## Runs of comments -/

section
variable {α : Type} {P : List α → Prop} {before run run' : List α}

/-- The longest end of a list with a property. -/
structure LongestEnd (P : List α → Prop) (before run : List α) : Prop where
  suffix : run <:+ before
  holds : P run
  longest : ∀ run', run' <:+ before → P run' → run' <:+ run

theorem LongestEnd.unique (h : LongestEnd P before run) (h' : LongestEnd P before run') :
    run = run' := by
  have hle := h'.longest run h.suffix h.holds
  exact hle.eq_of_length_le (h.longest run' h'.suffix h'.holds).length_le

end

namespace HostNode

/-- Only blanks stand between two nodes. -/
def Adjacent (cs : Text) (a b : HostNode) : Prop := blanksBetween cs a.span.stop b.span.start = true

/-- Comments one right after the other. -/
def IsStretch (cs : Text) (run : List HostNode) : Prop :=
  (∀ c ∈ run, c.kind = .comment) ∧ run.IsChain (Adjacent cs)

/-- Comments one right after the other, and right before a node. -/
def IsRun (cs : Text) (n : HostNode) (run : List HostNode) : Prop :=
  (∀ c ∈ run, c.kind = .comment) ∧ (run ++ [n]).IsChain (Adjacent cs)

/-- The label that a comment spells. -/
def label (cs : Text) (c : HostNode) : String := String.ofList (commentLabel (c.source cs))

/-- A comment annotates a node that comes after some siblings: the node is no comment, and in
    the longest run of comments right before it, this one is the last with a bound label. -/
structure Annotates (cs : Text) (bindings : List SchemaBinding) (before : List HostNode)
    (n c : HostNode) (b : SchemaBinding) : Prop where
  not_comment : n.kind ≠ .comment
  last_bound : ∃ earlier later, LongestEnd (IsRun cs n) before (earlier ++ c :: later) ∧
    bindings.find? (fun b => b.label = c.label cs) = some b ∧
    ∀ d ∈ later, bindings.find? (fun b => b.label = d.label cs) = none

section
variable {cs : Text} {n c : HostNode} {before run : List HostNode}

theorem isStretch_nil (cs : Text) : IsStretch cs [] := ⟨by simp, .nil⟩

theorem isStretch_append_singleton :
    IsStretch cs (run ++ [c]) ↔ IsStretch cs run ∧ c.kind = .comment ∧
      ∀ last ∈ run.getLast?, Adjacent cs last c := by
  simp only [IsStretch, List.forall_mem_append, List.isChain_append, List.forall_mem_singleton,
    List.isChain_singleton, true_and, List.head?_cons, Option.mem_def, Option.some.injEq,
      forall_eq']
  tauto

theorem isRun_iff : IsRun cs n run ↔ IsStretch cs run ∧
    ∀ last ∈ run.getLast?, Adjacent cs last n := by
  simp only [IsRun, IsStretch, List.isChain_append, List.isChain_singleton, true_and,
    List.head?_cons,
    Option.mem_def, Option.some.injEq, forall_eq']
  tauto

/-- A longest stretch that is right before a node is the longest run before the node. -/
theorem isRun_of_longest (h : LongestEnd (IsStretch cs) before run)
    (hn : ∀ last ∈ run.getLast?, Adjacent cs last n) : LongestEnd (IsRun cs n) before run :=
  ⟨h.suffix, isRun_iff.2 ⟨h.holds, hn⟩, fun run' hs hr => h.longest run' hs (isRun_iff.1 hr).1⟩

/-- A run that is not empty ends with the last comment of the longest stretch. -/
theorem getLast?_of_longest {run' : List HostNode} (h : LongestEnd (IsStretch cs) before run)
    (hs : run' <:+ before) (hr : IsStretch cs run') (hne : run' ≠ []) :
    run'.getLast? = run.getLast? := by
  obtain ⟨t, ht⟩ := h.longest run' hs hr
  rw [← ht, List.getLast?_append_of_ne_nil t hne]

/-! ## The comments that are kept -/

/-- The kept comments, last first, are those of the longest stretch before the next node. -/
def Keeps (cs : Text) (before : List HostNode) (comments : List Span) : Prop :=
  ∃ run, LongestEnd (IsStretch cs) before run ∧ comments = (run.map span).reverse

theorem keeps_nil (cs : Text) : Keeps cs [] [] :=
  ⟨[], ⟨List.suffix_refl [], isStretch_nil cs, fun _ hs _ => hs⟩, rfl⟩

/-- After a node that is no comment, no comments are kept. -/
theorem keeps_other (hn : n.kind ≠ .comment) : Keeps cs (before ++ [n]) [] := by
  refine ⟨[], ⟨List.nil_suffix, isStretch_nil cs, fun run' hs hr => ?_⟩, rfl⟩
  rcases List.suffix_concat_iff.1 hs with rfl | ⟨t, rfl, -⟩
  · exact List.suffix_refl []
  · exact absurd (isStretch_append_singleton.1 hr).2.1 hn

/-- A comment joins the kept ones or replaces them. -/
theorem Keeps.joinComment {comments : List Span} (h : Keeps cs before comments)
    (hc : c.kind = .comment) : Keeps cs (before ++ [c]) (joinComment cs comments c.span) := by
  obtain ⟨run, hrun, rfl⟩ := h
  by_cases hadj : ∃ last ∈ run.getLast?, Adjacent cs last c
  · obtain ⟨last, hlast, hadj⟩ := hadj
    obtain ⟨rest, rfl⟩ := List.getLast?_eq_some_iff.1 hlast
    have hall : ∀ l ∈ (rest ++ [last]).getLast?, Adjacent cs l c := fun l hl => by
      rw [Option.mem_unique hl hlast]
      exact hadj
    refine ⟨rest ++ [last] ++ [c], ⟨?_, isStretch_append_singleton.2 ⟨hrun.holds, hc, hall⟩, ?_⟩, ?_⟩
    · exact List.suffix_concat_iff.2 (.inr ⟨_, rfl, hrun.suffix⟩)
    · intro run' hs hr
      rcases List.suffix_concat_iff.1 hs with rfl | ⟨t, rfl, ht⟩
      · exact List.nil_suffix
      · have hlong := hrun.longest t ht (isStretch_append_singleton.1 hr).1
        exact List.suffix_concat_iff.2 (.inr ⟨t, rfl, hlong⟩)
    · have hblank : blanksBetween cs last.span.stop c.span.start = true := hadj
      simp [AnnotatedJson.joinComment, hblank]
  · -- No kept comment is right before this one, so that it starts a stretch of its own.
    refine ⟨[c], ⟨⟨before, rfl⟩, ⟨by simpa using hc, .singleton c⟩, ?_⟩, ?_⟩
    · intro run' hs hr
      rcases List.suffix_concat_iff.1 hs with rfl | ⟨t, rfl, ht⟩
      · exact List.nil_suffix
      · obtain ⟨hst, -, hgap⟩ := isStretch_append_singleton.1 hr
        rcases List.eq_nil_or_concat t with rfl | ⟨t', last, rfl⟩
        · exact List.suffix_refl _
        · have hlast := getLast?_of_longest hrun ht hst (by simp)
          exact absurd ⟨last, by rw [← hlast]; simp, hgap last (by simp)⟩ hadj
    · rcases List.eq_nil_or_concat run with rfl | ⟨rest, last, rfl⟩
      · rfl
      · have hblank : ¬ blanksBetween cs last.span.stop c.span.start = true :=
          fun hb => hadj ⟨last, by simp, hb⟩
        simp [AnnotatedJson.joinComment, hblank]

/-- **The kept comments decide what annotates a node.** -/
theorem annotation?_eq_some_iff {bindings : List SchemaBinding} {comments : List Span} {s : Span}
    {b : SchemaBinding} (h : Keeps cs before comments) (hn : n.kind ≠ .comment) :
    annotation? cs bindings comments n = some (s, b) ↔
      ∃ c, Annotates cs bindings before n c b ∧ c.span = s := by
  obtain ⟨run, hrun, rfl⟩ := h
  rcases List.eq_nil_or_concat' run with rfl | ⟨rest, last, hlast⟩
  · -- Nothing is kept, and every run before the node is empty.
    simp only [annotation?, List.map_nil, List.reverse_nil, reduceCtorEq, false_iff, not_exists,
      not_and]
    rintro c ⟨-, earlier, later, hrun', -⟩
    have hempty := hrun.longest _ hrun'.suffix (isRun_iff.1 hrun'.holds).1
    simp at hempty
  · have hget : run.getLast? = some last := by simp [hlast]
    have hunfold : annotation? cs bindings (run.map span).reverse n =
        if blanksBetween cs last.span.stop n.span.start then
          run.reverse.findSome? fun c => (bindingOf? cs bindings c.span).map fun b => (c.span, b)
        else none := by
      have hhead : (run.map span).reverse = last.span :: (rest.map span).reverse := by simp [hlast]
      rw [hhead, annotation?, ← hhead, ← List.map_reverse, List.findSome?_map]
      rfl
    rw [hunfold]
    by_cases hadj : blanksBetween cs last.span.stop n.span.start = true
    · rw [if_pos hadj, List.findSome?_eq_some_iff]
      have hmax : LongestEnd (IsRun cs n) before run := isRun_of_longest hrun fun l hl => by
        rw [Option.mem_unique hl hget]
        exact hadj
      constructor
      · rintro ⟨l₁, c, l₂, hsplit, hb, hnone⟩
        obtain ⟨b', hb', hpair⟩ := Option.map_eq_some_iff.1 hb
        obtain ⟨rfl, rfl⟩ := Prod.mk.inj hpair
        have hsplit' : run = l₂.reverse ++ c :: l₁.reverse := by
          rw [← List.reverse_reverse run, hsplit]
          simp
        refine ⟨c, ⟨hn, l₂.reverse, l₁.reverse, hsplit' ▸ hmax, hb', fun d hd => ?_⟩, rfl⟩
        exact Option.map_eq_none_iff.1 (hnone d (List.mem_reverse.1 hd))
      · rintro ⟨c, ⟨-, earlier, later, hrun', hb, hnone⟩, rfl⟩
        have hsplit := hmax.unique hrun'
        refine ⟨later.reverse, c, earlier.reverse, by simp [hsplit], ?_, fun d hd => ?_⟩
        · exact Option.map_eq_some_iff.2 ⟨b, hb, rfl⟩
        · exact Option.map_eq_none_iff.2 (hnone d (List.mem_reverse.1 hd))
    · -- The last comment is not right before the node, so that no run is.
      rw [if_neg hadj]
      simp only [reduceCtorEq, false_iff, not_exists, not_and]
      rintro c ⟨-, earlier, later, hrun', -⟩
      obtain ⟨hst, hgap⟩ := isRun_iff.1 hrun'.holds
      have hsame := getLast?_of_longest hrun hrun'.suffix hst (by simp)
      exact absurd (hgap last (by rw [hsame]; exact hget)) hadj

end

/-! ## Addresses -/

/-- The node at an address: the child indices on the way down. -/
def at? (n : HostNode) : List Nat → Option HostNode
  | [] => some n
  | i :: p => n.children[i]?.bind fun c => c.at? p

section
variable (cs : Text) (bindings : List SchemaBinding)

/-- The node at an address is annotated by a comment and has an object.  The root of the
    addresses is at a depth. -/
def Marked (depth : Nat) (root : HostNode) (address : List Nat) (c : HostNode) (b : SchemaBinding)
    (object : HostNode) : Prop :=
  ∃ p i parent n, address = p ++ [i] ∧ root.at? p = some parent ∧ parent.children[i]? = some n ∧
    Annotates cs bindings (parent.children.take i) n c b ∧
      annotated? n (depth + p.length) = some object

/-- An address under which regions are looked for: it is not too deep, and neither the node
    there nor one above it is a comment or is annotated and has an object. -/
def Reached (depth : Nat) (root : HostNode) (address : List Nat) : Prop :=
  depth + address.length ≤ maxRegionDepth ∧ ∀ p, p ≠ [] → p <+: address →
    (∀ n, root.at? p = some n → n.kind ≠ .comment) ∧
      ¬ ∃ c b object, Marked cs bindings depth root p c b object

/-- An address that gives a region: it is marked, and its parent is reached. -/
def Chosen (depth : Nat) (root : HostNode) (address : List Nat) : Prop :=
  (∃ c b object, Marked cs bindings depth root address c b object) ∧
    Reached cs bindings depth root address.dropLast

/-- The region that a marked address gives. -/
def Gives (depth : Nat) (root : HostNode) (address : List Nat) (r : Region) : Prop :=
  ∃ c b object, Marked cs bindings depth root address c b object ∧
    r = Region.ofObject cs object c.span b

variable {cs bindings} {depth i : Nat} {root child c object : HostNode} {b : SchemaBinding}
  {p q : List Nat}

theorem marked_singleton : Marked cs bindings depth root [i] c b object ↔
    ∃ n, root.children[i]? = some n ∧ Annotates cs bindings (root.children.take i) n c b ∧
      annotated? n depth = some object := by
  constructor
  · rintro ⟨p, j, parent, n, hp, hparent, hn, hann, ho⟩
    obtain ⟨rfl, hj⟩ := List.append_eq_singleton_iff.1 hp.symm |>.resolve_right (by simp)
    cases hj
    cases hparent
    exact ⟨n, hn, hann, ho⟩
  · rintro ⟨n, hn, hann, ho⟩
    exact ⟨[], i, root, n, rfl, rfl, hn, hann, ho⟩

theorem not_marked_nil : ¬ Marked cs bindings depth root [] c b object := by
  rintro ⟨p, j, _, _, hp, -⟩
  simp at hp

theorem marked_cons (hchild : root.children[i]? = some child) (hq : q ≠ []) :
    Marked cs bindings depth root (i :: q) c b object ↔
      Marked cs bindings (depth + 1) child q c b object := by
  constructor
  · rintro ⟨p, j, parent, n, hp, hparent, hn, hann, ho⟩
    cases p with
    | nil => simp_all
    | cons k p =>
      obtain ⟨rfl, rfl⟩ := List.cons.inj hp
      rw [at?, hchild, Option.bind_some] at hparent
      refine ⟨p, j, parent, n, rfl, hparent, hn, hann, ?_⟩
      rwa [List.length_cons, Nat.add_comm p.length, ← Nat.add_assoc] at ho
  · rintro ⟨p, j, parent, n, rfl, hparent, hn, hann, ho⟩
    refine ⟨i :: p, j, parent, n, rfl, ?_, hn, hann, ?_⟩
    · rw [at?, hchild, Option.bind_some, hparent]
    · rwa [List.length_cons, Nat.add_comm p.length, ← Nat.add_assoc]

theorem child_of_marked (h : Marked cs bindings depth root (i :: q) c b object) :
    ∃ child, root.children[i]? = some child := by
  obtain ⟨p, j, parent, n, hp, hparent, hn, -⟩ := h
  cases p with
  | nil =>
    cases hp
    cases hparent
    exact ⟨n, hn⟩
  | cons k p =>
    obtain ⟨rfl, -⟩ := List.cons.inj hp
    obtain ⟨child, hchild, -⟩ := Option.bind_eq_some_iff.1 hparent
    exact ⟨child, hchild⟩

theorem reached_nil : Reached cs bindings depth root [] ↔ depth ≤ maxRegionDepth := by
  constructor
  · exact fun h => h.1
  · refine fun h => ⟨h, fun p hp hpre => ?_⟩
    exact absurd (List.prefix_nil.1 hpre) hp

theorem reached_cons (hchild : root.children[i]? = some child) :
    Reached cs bindings depth root (i :: p) ↔ child.kind ≠ .comment ∧
      (¬ ∃ c b object, Marked cs bindings depth root [i] c b object) ∧
      Reached cs bindings (depth + 1) child p := by
  have hat : ∀ q, root.at? (i :: q) = child.at? q := fun q => by rw [at?, hchild, Option.bind_some]
  constructor
  · rintro ⟨hdepth, hall⟩
    obtain ⟨hkind, hmark⟩ := hall [i] (by simp) (by simp)
    refine ⟨hkind child (hat []), hmark, ?_, fun q hq hpre => ?_⟩
    · rw [List.length_cons] at hdepth
      omega
    · obtain ⟨hk, hm⟩ := hall (i :: q) (by simp) (List.cons_prefix_cons.2 ⟨rfl, hpre⟩)
      simp only [marked_cons hchild hq] at hm
      exact ⟨fun n hn => hk n ((hat q).trans hn), hm⟩
  · rintro ⟨hkind, hmark, hdepth, hall⟩
    refine ⟨by rw [List.length_cons]; omega, fun q hq hpre => ?_⟩
    obtain ⟨j, q, rfl⟩ := List.exists_cons_of_ne_nil hq
    obtain ⟨rfl, htail⟩ := List.cons_prefix_cons.1 hpre
    rcases eq_or_ne q [] with rfl | hq
    · refine ⟨fun n hn => ?_, hmark⟩
      rw [hat] at hn
      cases hn
      exact hkind
    · obtain ⟨hk, hm⟩ := hall q hq htail
      simp only [marked_cons hchild hq]
      exact ⟨fun n hn => hk n ((hat q).symm.trans hn), hm⟩

theorem chosen_singleton : Chosen cs bindings depth root [i] ↔
    (∃ c b object, Marked cs bindings depth root [i] c b object) ∧ depth ≤ maxRegionDepth := by
  rw [Chosen, List.dropLast_singleton, reached_nil]

theorem chosen_cons (hchild : root.children[i]? = some child) (hq : q ≠ []) :
    Chosen cs bindings depth root (i :: q) ↔ child.kind ≠ .comment ∧
      (¬ ∃ c b object, Marked cs bindings depth root [i] c b object) ∧
      Chosen cs bindings (depth + 1) child q := by
  rw [Chosen, Chosen, List.dropLast_cons_of_ne_nil hq, reached_cons hchild]
  simp only [marked_cons hchild hq]
  tauto

theorem Chosen.depth_le {address : List Nat} (h : Chosen cs bindings depth root address) :
    depth ≤ maxRegionDepth := (Nat.le_add_right _ _).trans h.2.1

theorem Chosen.ne_nil {address : List Nat} (h : Chosen cs bindings depth root address) :
    address ≠ [] := by
  rintro rfl
  obtain ⟨_, _, _, hm⟩ := h.1
  exact not_marked_nil hm

end

/-! ## Regions by address -/

section
variable {P Q : List Nat → Prop} {R S : List Nat → Region → Prop} {rs ss : List Region} {i : Nat}

/-- Regions that belong one by one to the addresses with a property, in document order. -/
def Listed (P : List Nat → Prop) (R : List Nat → Region → Prop) (rs : List Region) : Prop :=
  ∃ addresses : List (List Nat), addresses.Pairwise (· < ·) ∧ (∀ q, q ∈ addresses ↔ P q) ∧
    List.Forall₂ R addresses rs

theorem Listed.nil (h : ∀ q, ¬ P q) : Listed P R [] := ⟨[], .nil, by simpa using h, .nil⟩

theorem Listed.congr (h : Listed P R rs) (hp : ∀ q, P q ↔ Q q) : Listed Q R rs := by
  obtain ⟨addresses, hord, hmem, hreg⟩ := h
  exact ⟨addresses, hord, fun q => (hmem q).trans (hp q), hreg⟩

theorem Listed.exists_of_mem (h : Listed P R rs) : ∀ r ∈ rs, ∃ q, R q r := by
  obtain ⟨addresses, -, -, hrs⟩ := h
  induction hrs with
  | nil => simp
  | cons hr _ ih => exact List.forall_mem_cons.2 ⟨⟨_, hr⟩, ih⟩

theorem Listed.append (h : Listed P R rs) (h' : Listed Q R ss) (hlt : ∀ p q, P p → Q q → p < q) :
    Listed (fun q => P q ∨ Q q) R (rs ++ ss) := by
  obtain ⟨ps, hps, hpmem, hpreg⟩ := h
  obtain ⟨qs, hqs, hqmem, hqreg⟩ := h'
  refine ⟨ps ++ qs, List.pairwise_append.2 ⟨hps, hqs, fun p hp q hq => ?_⟩, fun q => ?_,
    List.rel_append hpreg hqreg⟩
  · exact hlt p q ((hpmem p).1 hp) ((hqmem q).1 hq)
  · rw [List.mem_append, hpmem, hqmem]

theorem Listed.singleton {q : List Nat} {r : Region} (h : R q r) : Listed (fun p => p = q) R [r] :=
  ⟨[q], List.pairwise_singleton _ _, fun _ => List.mem_singleton, .cons h .nil⟩

/-- The regions of a child, by their addresses from the node above. -/
theorem Listed.under (i : Nat) (h : Listed P R rs) (hr : ∀ q r, P q → R q r → S (i :: q) r) :
    Listed (fun q => ∃ q', q = i :: q' ∧ P q') S rs := by
  obtain ⟨qs, hqs, hmem, hreg⟩ := h
  refine ⟨qs.map (i :: ·), ?_, fun q => ?_, ?_⟩
  · exact List.pairwise_map.2 (hqs.imp fun hlt => List.cons_lt_cons_iff.2 (.inr ⟨rfl, hlt⟩))
  · simp only [List.mem_map, hmem]
    exact ⟨fun ⟨q', hq', he⟩ => ⟨q', he.symm, hq'⟩, fun ⟨q', he, hq'⟩ => ⟨q', hq', he.symm⟩⟩
  · rw [List.forall₂_map_left_iff]
    have hp : ∀ q ∈ qs, P q := fun q hq => (hmem q).1 hq
    clear hqs hmem
    induction hreg with
    | nil => exact .nil
    | cons hqr _ ih =>
      obtain ⟨hq, hp⟩ := List.forall_mem_cons.1 hp
      exact .cons (hr _ _ hq hqr) (ih hp)

end

/-! ## The traversal -/

section
variable {cs : Text} {bindings : List SchemaBinding} {depth : Nat} {root n : HostNode}
variable {before ns : List HostNode} {comments : List Span}

/-- An address that gives a region and begins at a child or later. -/
def ChosenFrom (cs : Text) (bindings : List SchemaBinding) (depth : Nat) (root : HostNode)
    (start : Nat) (address : List Nat) : Prop :=
  Chosen cs bindings depth root address ∧ ∃ i q, address = i :: q ∧ start ≤ i

/-- The addresses from a child on are those that begin there and those from the next one on. -/
theorem chosenFrom_iff {start : Nat} {address : List Nat} :
    ChosenFrom cs bindings depth root start address ↔
      (∃ q, address = start :: q ∧ Chosen cs bindings depth root address) ∨
      ChosenFrom cs bindings depth root (start + 1) address := by
  constructor
  · rintro ⟨hc, i, q, rfl, hi⟩
    rcases Nat.eq_or_lt_of_le hi with rfl | hlt
    · exact .inl ⟨q, rfl, hc⟩
    · exact .inr ⟨hc, i, q, rfl, hlt⟩
  · rintro (⟨q, rfl, hc⟩ | ⟨hc, i, q, rfl, hi⟩)
    · exact ⟨hc, start, q, rfl, le_rfl⟩
    · exact ⟨hc, i, q, rfl, by omega⟩

/-- Whether a child is marked is seen from the kept comments. -/
theorem marked_iff (hroot : root.children = before ++ n :: ns) (hkeeps : Keeps cs before comments)
    (hn : n.kind ≠ .comment) {s : Span} {b : SchemaBinding} {object : HostNode} :
    (∃ c, Marked cs bindings depth root [before.length] c b object ∧ c.span = s) ↔
      annotation? cs bindings comments n = some (s, b) ∧ annotated? n depth = some object := by
  have hchild : root.children[before.length]? = some n := by simp [hroot]
  have htake : root.children.take before.length = before := by simp [hroot]
  simp only [marked_singleton, hchild, htake, Option.some.injEq, exists_eq_left',
    annotation?_eq_some_iff hkeeps hn]
  tauto

/-- The regions among siblings belong to the addresses that begin with them. -/
theorem listed_regionsAmong (hdepth : depth ≤ maxRegionDepth) :
    ∀ (ns before : List HostNode) (comments : List Span),
    root.children = before ++ ns → Keeps cs before comments →
    (∀ n ∈ ns, Listed (Chosen cs bindings (depth + 1) n) (Gives cs bindings (depth + 1) n)
      (regionsUnder cs bindings (depth + 1) n)) →
    Listed (ChosenFrom cs bindings depth root before.length) (Gives cs bindings depth root)
      (regionsAmong cs bindings depth comments ns) := by
  intro ns
  induction ns with
  | nil =>
    intro before comments hroot _ _
    rw [regionsAmong]
    refine .nil ?_
    rintro _ ⟨⟨⟨c, b, object, hm⟩, -⟩, i, q, rfl, hi⟩
    obtain ⟨child, hchild⟩ := child_of_marked hm
    rw [hroot, List.append_nil, List.getElem?_eq_none hi] at hchild
    cases hchild
  | cons n ns ih =>
    intro before comments hroot hkeeps hns
    obtain ⟨hn, hns⟩ := List.forall_mem_cons.1 hns
    have hchild : root.children[before.length]? = some n := by simp [hroot]
    have hroot' : root.children = (before ++ [n]) ++ ns := by simp [hroot]
    have hlen : (before ++ [n]).length = before.length + 1 := by simp
    rw [regionsAmong]
    split
    · next hkind =>
      -- No region belongs to a comment or lies under one.
      refine (hlen ▸ ih _ _ hroot' (hkeeps.joinComment hkind) hns).congr fun q => ?_
      refine ⟨fun h => chosenFrom_iff.2 (.inr h), fun h => (chosenFrom_iff.1 h).resolve_left ?_⟩
      rintro ⟨q, rfl, hc⟩
      rcases eq_or_ne q [] with rfl | hq
      · obtain ⟨⟨c, b, object, hm⟩, -⟩ := chosen_singleton.1 hc
        obtain ⟨m, hm, hann, -⟩ := marked_singleton.1 hm
        cases hchild.symm.trans hm
        exact hann.not_comment hkind
      · exact ((chosen_cons hchild hq).1 hc).1 hkind
    · next hkind =>
      have hrest := hlen ▸ ih _ _ hroot' (keeps_other hkind) hns
      have hafter : ∀ p q, (∃ p', p = before.length :: p') →
          ChosenFrom cs bindings depth root (before.length + 1) q → p < q := by
        rintro _ _ ⟨p', rfl⟩ ⟨-, i, q, rfl, hi⟩
        exact List.cons_lt_cons_iff.2 (.inl hi)
      dsimp only
      split
      · next r hr =>
        -- The node gives a region, and nothing under it is looked at.
        obtain ⟨⟨s, b⟩, hann, hobj⟩ := Option.bind_eq_some_iff.1 hr
        obtain ⟨object, ho, rfl⟩ := Option.map_eq_some_iff.1 hobj
        obtain ⟨c, hm, rfl⟩ := (marked_iff hroot hkeeps hkind).2 ⟨hann, ho⟩
        have hone : Listed (fun q => q = [before.length]) (Gives cs bindings depth root)
            [Region.ofObject cs object c.span b] := .singleton ⟨c, b, object, hm, rfl⟩
        refine (hone.append hrest fun p q hp => hafter p q ⟨[], hp⟩).congr fun q => ?_
        refine (or_congr_left ⟨?_, ?_⟩).trans chosenFrom_iff.symm
        · rintro rfl
          exact ⟨[], rfl, chosen_singleton.2 ⟨⟨c, b, object, hm⟩, hdepth⟩⟩
        · rintro ⟨q, rfl, hc⟩
          rcases eq_or_ne q [] with rfl | hq
          · rfl
          · exact absurd ⟨c, b, object, hm⟩ ((chosen_cons hchild hq).1 hc).2.1
      · next hnone =>
        have hunmarked : ¬ ∃ c b object, Marked cs bindings depth root
            [before.length] c b object := by
          rintro ⟨c, b, object, hm⟩
          obtain ⟨hann, ho⟩ := (marked_iff hroot hkeeps hkind).1 ⟨c, hm, rfl⟩
          simp [hann, ho] at hnone
        have hunder :=
          hn.under before.length (S := Gives cs bindings depth root) fun q r hc hg => by
          obtain ⟨c, b, object, hm, rfl⟩ := hg
          exact ⟨c, b, object, (marked_cons hchild hc.ne_nil).2 hm, rfl⟩
        refine (hunder.append hrest ?_).congr fun q => ?_
        · rintro p q ⟨p', rfl, -⟩
          exact hafter _ _ ⟨p', rfl⟩
        · refine (or_congr_left ⟨?_, ?_⟩).trans chosenFrom_iff.symm
          · rintro ⟨q, rfl, hc⟩
            exact ⟨q, rfl, (chosen_cons hchild hc.ne_nil).2 ⟨hkind, hunmarked, hc⟩⟩
          · rintro ⟨q, rfl, hc⟩
            rcases eq_or_ne q [] with rfl | hq
            · exact absurd (chosen_singleton.1 hc).1 hunmarked
            · exact ⟨q, rfl, ((chosen_cons hchild hq).1 hc).2.2⟩

theorem listed_regionsUnder (root : HostNode) (depth : Nat) :
    Listed (Chosen cs bindings depth root) (Gives cs bindings depth root)
      (regionsUnder cs bindings depth root) := by
  induction root using HostNode.induction_on generalizing depth with
  | h root ih =>
    cases root with
    | node kind role span children =>
      rw [regionsUnder]
      split
      · next hdeep => exact .nil fun q hq => absurd hq.depth_le (by omega)
      · next hdepth =>
        have hall : Listed (ChosenFrom cs bindings depth (.node kind role span children) 0) _ _ :=
          listed_regionsAmong (by omega) children [] [] rfl (keeps_nil cs)
            fun n hn => ih n hn (depth + 1)
        refine hall.congr fun q => ⟨fun h => h.1, fun h => ⟨h, ?_⟩⟩
        obtain ⟨i, q, rfl⟩ := List.exists_cons_of_ne_nil h.ne_nil
        exact ⟨i, q, rfl, Nat.zero_le i⟩

end

end HostNode

open HostNode

/-- **Regions are gated by comments.**  There is one region for each address that is marked and
    whose parent is reached, in document order, and there are no others.  It has the extent of
    the object, the comment as its annotation, and the first binding of the comment's label. -/
theorem Region.ofTree_gated (bindings : List SchemaBinding) (cs : Text) (root : HostNode) :
    ∃ addresses : List (List Nat), addresses.Pairwise (· < ·) ∧
      (∀ q, q ∈ addresses ↔ (∃ c b object, Marked cs bindings 0 root q c b object) ∧
        Reached cs bindings 0 root q.dropLast) ∧
      List.Forall₂ (fun q r => ∃ c b object, Marked cs bindings 0 root q c b object ∧
        r.span = object.span ∧ r.annotation = some c.span ∧ r.label = some b.label ∧
        r.schemaUri = some b.schema) addresses (Region.ofTree bindings cs root) := by
  have hlisted : Listed (Chosen cs bindings 0 root) (Gives cs bindings 0 root)
      (Region.ofTree bindings cs root) := by
    unfold Region.ofTree
    split
    · next hempty =>
      refine .nil ?_
      rintro q ⟨⟨c, b, object, p, i, parent, n, -, -, -, ⟨-, earlier, later, -, hb, -⟩, -⟩, -⟩
      rw [List.isEmpty_iff.1 hempty] at hb
      cases hb
    · exact listed_regionsUnder root 0
  obtain ⟨addresses, hord, hmem, hgives⟩ := hlisted
  refine ⟨addresses, hord, hmem, hgives.imp ?_⟩
  rintro q r ⟨c, b, object, hm, rfl⟩
  exact ⟨c, b, object, hm, rfl, rfl, rfl, rfl⟩

end AnnotatedJson
