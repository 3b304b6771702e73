/-
  How the regions of a text are arranged.

  * `Region.Proper`: a region comes after its annotation, shows the masked text of its extent,
    and its corrections lie in it one after the other;
  * `Region.Arranged`: proper regions between two offsets, each one before the annotation of
    the next;
  * `arranged_regionsAmong` carries this through siblings: regions of a node lie in the node, and
    the comments that may annotate it lie after everything found before;
  * `Region.ofTree_disjoint`: the regions of a tree that fits the text are arranged so.
-/
import Mathlib
import AnnotatedJson.Proofs.HostTree
import AnnotatedJson.Proofs.Masking

namespace AnnotatedJson

open HostNode

section
variable {cs : Text}

/-- A masked text ends where its region ends. -/
theorem Text.bytes_maskPrefix {start stop : Nat} (h : start ≤ stop)
    (hs : isBoundary cs start = true) (he : isBoundary cs stop = true) :
    bytes (maskPrefix cs start stop) = stop := by
  have hslice : slice? cs ⟨start, stop⟩ = some (takeBytes (stop - start) (dropBytes start cs)) := by
    simp [slice?, h, hs, he]
  obtain ⟨mask, hmask, hbytes, -⟩ := maskPrefix_eq hslice
  obtain ⟨a, b, -, ha, hab⟩ := slice?_eq_some_iff.1 hslice
  simp only at ha hab
  rw [hmask, bytes_append]
  omega

/-! ## Corrections -/

/-- A correction takes its extents from a pair and from two children of it. -/
theorem correction?_spans {pair : HostNode} {c : Correction} (h : correction? cs pair = some c) :
    c.span = pair.span ∧ ∃ key ∈ pair.children, ∃ value ∈ pair.children,
      c.key.span = key.span ∧ c.value.span = value.span := by
  simp only [correction?, Option.bind_eq_bind, Option.bind_eq_some_iff] at h
  obtain ⟨key, hkey, value, hvalue, text, -, hc⟩ := h
  rw [← Option.some.inj hc]
  exact ⟨rfl, key, mem_of_field? hkey, value, mem_of_field? hvalue, rfl, rfl⟩

section
variable {object : HostNode} (h : object.TreeFits cs)

include h

theorem corrections_within : ∀ c ∈ corrections cs object,
    c.span.Within object.span ∧ c.key.span.Within c.span ∧ c.value.span.Within c.span := by
  intro c hc
  obtain ⟨pair, hpair, hfound⟩ := List.mem_filterMap.1 hc
  have hmem : pair ∈ object.children := List.mem_of_mem_filter hpair
  obtain ⟨hspan, key, hkey, value, hvalue, hk, hv⟩ := correction?_spans hfound
  rw [hspan, hk, hv]
  exact ⟨h.within_of_mem hmem, (h.child hmem).within_of_mem hkey, (h.child hmem).within_of_mem hvalue⟩

theorem corrections_ordered :
    (corrections cs object).Pairwise fun c d => c.span.stop ≤ d.span.start := by
  refine List.Pairwise.filterMap _ ?_ (h.fits.ordered.filter _)
  intro pair pair' hlt c hc d hd
  rw [(correction?_spans hc).1, (correction?_spans hd).1]
  exact hlt

end

/-! ## Regions in order -/

namespace Region

/-- A region as it should be: after its annotation, with the masked text of its extent, and
    with corrections that lie in it one after the other. -/
structure Proper (cs : Text) (r : Region) : Prop where
  annotated : ∃ a, r.annotation = some a ∧ a.start ≤ a.stop ∧ a.stop ≤ r.span.start
  start_le_stop : r.span.start ≤ r.span.stop
  stop_le : r.span.stop ≤ Text.bytes cs
  text_eq : r.text = some (Text.maskPrefix cs r.span.start r.span.stop)
  text_bytes : Text.bytes (Text.maskPrefix cs r.span.start r.span.stop) = r.span.stop
  corrections_within : ∀ c ∈ r.corrections,
    c.span.Within r.span ∧ c.key.span.Within c.span ∧ c.value.span.Within c.span
  corrections_ordered : r.corrections.Pairwise fun c d => c.span.stop ≤ d.span.start

/-- A region ends before the annotation of another one. -/
def Precedes (r r' : Region) : Prop := ∀ a, r'.annotation = some a → r.span.stop ≤ a.start

/-- Proper regions between two offsets, annotations included, one after the other. -/
structure Arranged (cs : Text) (lo hi : Nat) (rs : List Region) : Prop where
  proper : ∀ r ∈ rs, r.Proper cs
  lo_le : ∀ r ∈ rs, ∀ a, r.annotation = some a → lo ≤ a.start
  le_hi : ∀ r ∈ rs, r.span.stop ≤ hi
  ordered : rs.Pairwise Precedes

variable {lo mid hi : Nat} {r : Region} {rs ss : List Region}

theorem Arranged.nil (cs : Text) (lo hi : Nat) : Arranged cs lo hi [] := by
  constructor <;> simp

theorem Arranged.mono {lo' hi' : Nat} (h : Arranged cs lo hi rs) (hlo : lo' ≤ lo) (hhi : hi ≤ hi') :
    Arranged cs lo' hi' rs where
  proper := h.proper
  lo_le r hr a ha := hlo.trans (h.lo_le r hr a ha)
  le_hi r hr := (h.le_hi r hr).trans hhi
  ordered := h.ordered

theorem Arranged.append (h : Arranged cs lo mid rs) (h' : Arranged cs mid hi ss) (hlo : lo ≤ mid)
    (hhi : mid ≤ hi) : Arranged cs lo hi (rs ++ ss) where
  proper := List.forall_mem_append.2 ⟨h.proper, h'.proper⟩
  lo_le := List.forall_mem_append.2 ⟨h.lo_le, (h'.mono hlo le_rfl).lo_le⟩
  le_hi := List.forall_mem_append.2 ⟨(h.mono le_rfl hhi).le_hi, h'.le_hi⟩
  ordered := List.pairwise_append.2 ⟨h.ordered, h'.ordered,
    fun r hr s hs a ha => (h.le_hi r hr).trans (h'.lo_le s hs a ha)⟩

theorem Arranged.singleton (h : r.Proper cs) (hlo : ∀ a, r.annotation = some a → lo ≤ a.start)
    (hhi : r.span.stop ≤ hi) : Arranged cs lo hi [r] := by
  constructor <;> simp_all

/-- The region of an object, with a comment that ends before the annotated node. -/
theorem proper_ofObject {n object : HostNode} {comment : Span} (b : SchemaBinding) (h : n.TreeFits cs)
    (ho : object.PartOf n) (hc : comment.start ≤ comment.stop) (hn : comment.stop ≤ n.span.start) :
    (ofObject cs object comment b).Proper cs where
  annotated := ⟨comment, rfl, hc, hn.trans (h.within ho).start_le⟩
  start_le_stop := (h.within ho).ordered
  stop_le := Text.isBoundary_le (h.part ho).fits.stop_boundary
  text_eq := rfl
  text_bytes := Text.bytes_maskPrefix (h.within ho).ordered (h.part ho).fits.start_boundary
    (h.part ho).fits.stop_boundary
  corrections_within := corrections_within (h.part ho)
  corrections_ordered := corrections_ordered (h.part ho)

end Region

open Region

/-! ## The regions of a tree -/

/-- Comments that lie one by one between an offset and the nodes that come next. -/
def CommentsBefore (lo : Nat) (comments : List Span) (ns : List HostNode) : Prop :=
  ∀ c ∈ comments, lo ≤ c.start ∧ c.start ≤ c.stop ∧ ∀ n ∈ ns, c.stop ≤ n.span.start

theorem mem_of_annotation? {bindings : List SchemaBinding} {comments : List Span} {n : HostNode}
    {c : Span} {b : SchemaBinding} (h : annotation? cs bindings comments n = some (c, b)) :
    c ∈ comments := by
  unfold annotation? at h
  split at h
  · cases h
  · split at h
    · obtain ⟨c', hc', hb⟩ := List.exists_of_findSome?_eq_some h
      obtain ⟨b', -, hpair⟩ := Option.map_eq_some_iff.1 hb
      rw [← (Prod.mk.inj hpair).1]
      exact hc'
    · cases h

theorem joinComment_subset {comments : List Span} {c x : Span}
    (h : x ∈ joinComment cs comments c) : x = c ∨ x ∈ comments := by
  unfold joinComment at h
  split at h
  · exact .inl (List.mem_singleton.1 h)
  · split at h
    · exact List.mem_cons.1 h
    · exact .inl (List.mem_singleton.1 h)

variable (bindings : List SchemaBinding)

/-- Siblings hold arranged regions if each of them does.  The comments right before them are
    the only earlier text that their regions may claim. -/
theorem arranged_regionsAmong (depth : Nat) {lo hi : Nat} :
    ∀ (ns : List HostNode) (comments : List Span),
    (∀ n ∈ ns, n.TreeFits cs ∧ lo ≤ n.span.start ∧ n.span.stop ≤ hi ∧
      Arranged cs n.span.start n.span.stop (regionsUnder cs bindings (depth + 1) n)) →
    ns.Pairwise (fun a b => a.span.stop ≤ b.span.start) → CommentsBefore lo comments ns →
    Arranged cs lo hi (regionsAmong cs bindings depth comments ns) := by
  intro ns
  induction ns generalizing lo with
  | nil =>
    intro comments _ _ _
    rw [regionsAmong]
    exact .nil cs lo hi
  | cons n ns ih =>
    intro comments hns hord hcom
    obtain ⟨⟨hfit, hlo, hhi, hunder⟩, hns⟩ := List.forall_mem_cons.1 hns
    obtain ⟨hn, hord⟩ := List.pairwise_cons.1 hord
    have hspan : n.span.start ≤ n.span.stop := hfit.fits.start_le_stop
    -- What comes after the node begins at its end, with no comment kept.
    have hrest : Arranged cs n.span.stop hi (regionsAmong cs bindings depth [] ns) := by
      refine ih [] (fun m hm => ?_) hord (by simp [CommentsBefore])
      obtain ⟨hmfit, -, hmhi, hmunder⟩ := hns m hm
      exact ⟨hmfit, hn m hm, hmhi, hmunder⟩
    rw [regionsAmong]
    split
    · refine ih _ hns hord fun c hc => ?_
      rcases joinComment_subset hc with rfl | hc
      · exact ⟨hlo, hspan, hn⟩
      · obtain ⟨h1, h2, h3⟩ := hcom c hc
        exact ⟨h1, h2, (List.forall_mem_cons.1 h3).2⟩
    · dsimp only
      split
      · next r hr =>
        obtain ⟨⟨c, b⟩, hann, hobj⟩ := Option.bind_eq_some_iff.1 hr
        obtain ⟨object, ho, rfl⟩ := Option.map_eq_some_iff.1 hobj
        obtain ⟨hcl, hcs, hcn⟩ := hcom c (mem_of_annotation? hann)
        have hpart := annotated?_partOf ho
        have hproper := proper_ofObject b hfit hpart hcs (hcn n List.mem_cons_self)
        have hone : Arranged cs lo n.span.stop [ofObject cs object c b] := by
          refine .singleton hproper ?_ (hfit.within hpart).stop_le
          rintro a ha
          rw [← Option.some.inj ha]
          exact hcl
        exact hone.append hrest (hlo.trans hspan) hhi
      · exact (hunder.mono hlo le_rfl).append hrest (hlo.trans hspan) hhi

/-- The regions under a node lie in it. -/
theorem arranged_regionsUnder {root : HostNode} (h : root.TreeFits cs) (depth : Nat) :
    Arranged cs root.span.start root.span.stop (regionsUnder cs bindings depth root) := by
  induction root using HostNode.induction_on generalizing depth with
  | h root ih =>
    cases root with
    | node kind role span children =>
      rw [regionsUnder]
      split
      · exact .nil cs _ _
      · refine arranged_regionsAmong bindings depth children [] ?_ h.fits.ordered
          (by simp [CommentsBefore])
        intro n hn
        have hin := h.within_of_mem hn
        exact ⟨h.child hn, hin.start_le, hin.stop_le, ih n hn (h.child hn) (depth + 1)⟩

/-- **Regions are disjoint.**  In a tree that fits the text, every region comes after its
    annotation and before the annotations of all later regions, ends in the text, shows the
    masked text up to its end, and has its corrections inside it, one after the other. -/
theorem Region.ofTree_disjoint (root : HostNode) (h : root.TreeFits cs) :
    (∀ r ∈ Region.ofTree bindings cs root, r.Proper cs) ∧
      (Region.ofTree bindings cs root).Pairwise Precedes := by
  unfold Region.ofTree
  split
  · simp
  · have harr := arranged_regionsUnder bindings h 0
    exact ⟨harr.proper, harr.ordered⟩

end

/-- Two annotated assignments. -/
def assignments : Text :=
  ['/', '/', 'é', '\n', 'x', '=', '{', 'b', ':', '\'', 'é', '\'', ',', 'c', ':', '{', '}', '}', '\n',
    '/', '*', 'é', '*', '/', 'y', '=', '{', 'd', ':', 'e', '}']

theorem Region.ofTree_disjoint_assignments :
    (HostNode.parse .typeScript assignments).TreeFits assignments ∧
    (Region.extract .typeScript [⟨"é", "s", false⟩] assignments).map Region.span =
      [⟨7, 20⟩, ⟨29, 34⟩] ∧
    (∀ r ∈ Region.extract .typeScript [⟨"é", "s", false⟩] assignments, r.Proper assignments) ∧
    (Region.extract .typeScript [⟨"é", "s", false⟩] assignments).Pairwise Region.Precedes := by
  have hfit : (HostNode.parse .typeScript assignments).TreeFits assignments := by decide +kernel
  exact ⟨hfit, by decide +kernel, Region.ofTree_disjoint _ _ hfit⟩

end AnnotatedJson
