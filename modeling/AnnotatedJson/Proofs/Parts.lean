/-
  How a range is cut at the borders of regions.

  * `Span.Tiles`: spans that fill the bytes between two offsets without a gap;
  * `Region.Apart`: regions of a text that do not overlap, `Region.InOrder`: the same one after the
    other, and `RegionIndex.inOrder_ofRegions`: the index of a document puts them in order;
  * `RegionIndex.Cuts`: what the parts of a span have to be;
  * `Cuts.skip`, `Cuts.inside`, `Cuts.before`: a region outside the span, a part of a region, and a
    part of the host in front; `RegionIndex.cuts_partsFrom` puts them together;
  * `RegionIndex.overlapping_tiles`: every range is cut so.
-/
import Mathlib
import AnnotatedJson.Region.Index
import AnnotatedJson.Proofs.Lines

namespace AnnotatedJson

namespace Span

/-! ## Spans side by side -/

/-- Two spans share a byte. -/
def Meets (s t : Span) : Prop := max s.start t.start < min s.stop t.stop

instance (s t : Span) : Decidable (s.Meets t) := inferInstanceAs (Decidable (_ < _))

/-- The bytes that two spans share. -/
def meet (s t : Span) : Span := ⟨max s.start t.start, min s.stop t.stop⟩

/-- Spans that fill the bytes from one offset to another: none is empty, each starts where the one
    before it ends. -/
inductive Tiles : Nat → Nat → List Span → Prop
  | nil (n : Nat) : Tiles n n []
  | cons {a b e : Nat} {spans : List Span} (h : a < b) (rest : Tiles b e spans) :
    Tiles a e (⟨a, b⟩ :: spans)

variable {a e : Nat} {spans : List Span}

theorem Tiles.le (h : Tiles a e spans) : a ≤ e := by
  induction h with
  | nil => exact le_rfl
  | cons h _ ih => exact h.le.trans ih

theorem Tiles.bounds (h : Tiles a e spans) {t : Span} (ht : t ∈ spans) :
    a ≤ t.start ∧ t.start < t.stop ∧ t.stop ≤ e := by
  induction h with
  | nil => cases ht
  | cons h rest ih =>
    rcases List.mem_cons.1 ht with rfl | ht
    · exact ⟨le_rfl, h, rest.le⟩
    · obtain ⟨h₁, h₂⟩ := ih ht
      exact ⟨h.le.trans h₁, h₂⟩

theorem Tiles.exists_mem (h : Tiles a e spans) {o : Nat} (hlo : a ≤ o) (hhi : o < e) :
    ∃ t ∈ spans, t.start ≤ o ∧ o < t.stop := by
  induction h with
  | nil => omega
  | @cons a b e spans h rest ih =>
    by_cases ho : o < b
    · exact ⟨_, List.mem_cons_self, hlo, ho⟩
    · obtain ⟨t, ht, hin⟩ := ih (Nat.le_of_not_lt ho) hhi
      exact ⟨t, List.mem_cons_of_mem _ ht, hin⟩

end Span

/-! ## Regions apart from each other -/

/-- Regions that lie on character boundaries of a text, none of them empty, and no two overlap. -/
structure Region.Apart (cs : Text) (rs : List Region) : Prop where
  nonempty : ∀ r ∈ rs, r.span.start < r.span.stop
  start_boundary : ∀ r ∈ rs, Text.isBoundary cs r.span.start = true
  stop_boundary : ∀ r ∈ rs, Text.isBoundary cs r.span.stop = true
  disjoint : rs.Pairwise fun r r' => ¬ r.span.Meets r'.span

/-- Regions apart from each other in the order of the text. -/
structure Region.InOrder (cs : Text) (rs : List Region) : Prop extends Region.Apart cs rs where
  ordered : rs.Pairwise fun r r' => r.span.stop ≤ r'.span.start

theorem Region.InOrder.tail {cs : Text} {r : Region} {rs : List Region} (h : InOrder cs (r :: rs)) :
    InOrder cs rs where
  nonempty := (List.forall_mem_cons.1 h.nonempty).2
  start_boundary := (List.forall_mem_cons.1 h.start_boundary).2
  stop_boundary := (List.forall_mem_cons.1 h.stop_boundary).2
  disjoint := h.disjoint.tail
  ordered := h.ordered.tail

theorem Region.InOrder.after {cs : Text} {r : Region} {rs : List Region} (h : InOrder cs (r :: rs)) :
    ∀ r' ∈ rs, r.span.stop ≤ r'.span.start := (List.pairwise_cons.1 h.ordered).1

theorem Region.InOrder.stop_le {cs : Text} {rs : List Region} (h : InOrder cs rs) {i j : Nat}
    {r r' : Region} (hi : rs[i]? = some r) (hj : rs[j]? = some r') (hij : i < j) :
    r.span.stop ≤ r'.span.start := by
  obtain ⟨hi', rfl⟩ := List.getElem?_eq_some_iff.1 hi
  obtain ⟨hj', rfl⟩ := List.getElem?_eq_some_iff.1 hj
  exact List.pairwise_iff_getElem.1 h.ordered i j hi' hj' hij

namespace RegionIndex

theorem regions_perm (d : Document) (rs : List Region) : (ofRegions d rs).regions.Perm rs :=
  List.mergeSort_perm rs _

theorem regions_sorted (d : Document) (rs : List Region) :
    (ofRegions d rs).regions.Pairwise fun r r' => r.span.start ≤ r'.span.start := by
  refine (List.pairwise_mergeSort ?_ ?_ rs).imp of_decide_eq_true
  · intro a b c hab hbc
    simp only [decide_eq_true_eq] at *
    exact hab.trans hbc
  · intro a b
    simp only [Bool.or_eq_true, decide_eq_true_eq]
    exact le_total _ _

/-- The index of a document has its regions in order. -/
theorem inOrder_ofRegions {d : Document} {rs : List Region} (h : Region.Apart d.text rs) :
    Region.InOrder d.text (ofRegions d rs).regions := by
  have hperm := regions_perm d rs
  have hnonempty : ∀ r ∈ (ofRegions d rs).regions, r.span.start < r.span.stop :=
    fun r hr => h.nonempty r (hperm.mem_iff.1 hr)
  have hdisjoint : (ofRegions d rs).regions.Pairwise fun r r' => ¬ r.span.Meets r'.span := by
    refine (hperm.pairwise_iff fun {r r'} hne => ?_).2 h.disjoint
    simp only [Span.Meets] at hne ⊢
    omega
  refine ⟨⟨hnonempty, fun r hr => h.start_boundary r (hperm.mem_iff.1 hr),
    fun r hr => h.stop_boundary r (hperm.mem_iff.1 hr), hdisjoint⟩, ?_⟩
  refine ((regions_sorted d rs).and hdisjoint).imp_of_mem ?_
  rintro r r' hr hr' ⟨hle, hne⟩
  have := hnonempty r hr
  have := hnonempty r' hr'
  simp only [Span.Meets] at hne
  omega

/-! ## Cutting a span -/

/-- The parts of a span `s` of a document, with regions that are numbered from `i` on. -/
structure Cuts (d : Document) (s : Span) (i : Nat) (rs : List Region) (parts : List LanguagePart) :
    Prop where
  /-- The parts fill the span. -/
  tiles : Span.Tiles s.start s.stop (parts.map fun p => d.spanOf p.range)
  /-- Each region that shares bytes with the span has one part: these bytes, in its language. -/
  embedded : (parts.filterMap fun p => p.region.map fun j => (j, d.spanOf p.range, p.language)) =
    ((rs.zipIdx i).filter fun e => s.Meets e.1.span).map fun e => (e.2, s.meet e.1.span, e.1.language)
  /-- All other parts belong to the host and share no byte with a region. -/
  host : ∀ p ∈ parts, p.region = none →
    p.language = d.language ∧ ∀ r ∈ rs, ¬ (d.spanOf p.range).Meets r.span
  /-- No two parts of the host are neighbours. -/
  alternating : parts.IsChain fun p q => p.region = none → q.region ≠ none

namespace Cuts

variable {d : Document} {s : Span} {i a b e : Nat} {pa pb : Position} {r : Region} {rs : List Region}
  {parts : List LanguagePart}

theorem within (h : Cuts d s i rs parts) {p : LanguagePart} (hp : p ∈ parts) :
    s.start ≤ (d.spanOf p.range).start ∧ (d.spanOf p.range).stop ≤ s.stop := by
  obtain ⟨h₁, -, h₂⟩ := h.tiles.bounds (List.mem_map_of_mem hp)
  exact ⟨h₁, h₂⟩

/-- A region outside the span changes nothing. -/
theorem skip (h : Cuts d s (i + 1) rs parts) (hr : ¬ s.Meets r.span) : Cuts d s i (r :: rs) parts where
  tiles := h.tiles
  embedded := by
    rw [h.embedded, List.zipIdx_cons, List.filter_cons_of_neg (by simpa using hr)]
  host := by
    intro p hp hn
    obtain ⟨hlang, hrs⟩ := h.host p hp hn
    refine ⟨hlang, List.forall_mem_cons.2 ⟨?_, hrs⟩⟩
    have := h.within hp
    simp only [Span.Meets] at hr ⊢
    omega
  alternating := h.alternating

/-- Moving the start of a span back over no region keeps what it shares with the regions. -/
theorem shares_eq (hab : a ≤ b) (hrs : ∀ r ∈ rs, b ≤ r.span.start) :
    (((rs.zipIdx i).filter fun x => (⟨a, e⟩ : Span).Meets x.1.span).map fun x =>
      (x.2, (⟨a, e⟩ : Span).meet x.1.span, x.1.language)) =
    ((rs.zipIdx i).filter fun x => (⟨b, e⟩ : Span).Meets x.1.span).map fun x =>
      (x.2, (⟨b, e⟩ : Span).meet x.1.span, x.1.language) := by
  have hstart : ∀ x ∈ rs.zipIdx i, max a x.1.span.start = max b x.1.span.start := by
    intro x hx
    have := hrs x.1 (List.fst_mem_of_mem_zipIdx hx)
    omega
  have hfilter : (rs.zipIdx i).filter (fun x => (⟨a, e⟩ : Span).Meets x.1.span) =
      (rs.zipIdx i).filter fun x => (⟨b, e⟩ : Span).Meets x.1.span := by
    refine List.filter_congr fun x hx => decide_eq_decide.2 ?_
    simp only [Span.Meets, hstart x hx]
  rw [hfilter]
  refine List.map_congr_left fun x hx => ?_
  simp only [Span.meet, hstart x (List.mem_of_mem_filter hx)]

theorem spanOf_eq (hpa : d.offsetAt pa = a) (hpb : d.offsetAt pb = b) :
    d.spanOf ⟨pa, pb⟩ = ⟨a, b⟩ := by simp [Document.spanOf, hpa, hpb]

/-- A part of a region in front: the span starts in the region and goes on where it ends. -/
theorem inside (h : Cuts d ⟨b, e⟩ (i + 1) rs parts) (hpa : d.offsetAt pa = a) (hpb : d.offsetAt pb = b)
    (hab : a < b) (hra : r.span.start ≤ a) (hrb : min r.span.stop e = b)
    (hrs : ∀ r' ∈ rs, r.span.stop ≤ r'.span.start) :
    Cuts d ⟨a, e⟩ i (r :: rs) (⟨⟨pa, pb⟩, r.language, some i⟩ :: parts) where
  tiles := by
    rw [List.map_cons, spanOf_eq hpa hpb]
    exact .cons hab h.tiles
  embedded := by
    have hmeets : (⟨a, e⟩ : Span).Meets r.span := by simp only [Span.Meets]; omega
    have hmeet : (⟨a, e⟩ : Span).meet r.span = ⟨a, b⟩ := by simp only [Span.meet, Span.mk.injEq]; omega
    have hafter : ∀ r' ∈ rs, b ≤ r'.span.start := fun r' hr' => by have := hrs r' hr'; omega
    rw [List.zipIdx_cons, List.filter_cons_of_pos (by simpa using hmeets), List.map_cons, hmeet,
      shares_eq hab.le hafter, ← h.embedded]
    simp [spanOf_eq hpa hpb]
  host := by
    intro p hp hn
    rcases List.mem_cons.1 hp with rfl | hp
    · cases hn
    · obtain ⟨hlang, hrest⟩ := h.host p hp hn
      refine ⟨hlang, List.forall_mem_cons.2 ⟨?_, hrest⟩⟩
      obtain ⟨hlo, hhi⟩ : b ≤ (d.spanOf p.range).start ∧ (d.spanOf p.range).stop ≤ e := h.within hp
      simp only [Span.Meets]
      omega
  alternating := List.isChain_cons.2 ⟨by simp, h.alternating⟩

/-- A part of the host in front of a part of a region. -/
theorem before (h : Cuts d ⟨b, e⟩ i rs parts) (hpa : d.offsetAt pa = a) (hpb : d.offsetAt pb = b)
    (hab : a < b) (hrs : ∀ r ∈ rs, b ≤ r.span.start) (hhead : ∀ p ∈ parts.head?, p.region ≠ none) :
    Cuts d ⟨a, e⟩ i rs (⟨⟨pa, pb⟩, d.language, none⟩ :: parts) where
  tiles := by
    rw [List.map_cons, spanOf_eq hpa hpb]
    exact .cons hab h.tiles
  embedded := by
    rw [shares_eq hab.le hrs, ← h.embedded]
    simp
  host := by
    intro p hp hn
    rcases List.mem_cons.1 hp with rfl | hp
    · refine ⟨rfl, fun r hr => ?_⟩
      have := hrs r hr
      simp only [Span.Meets, Document.spanOf, hpb]
      omega
    · exact h.host p hp hn
  alternating := List.isChain_cons.2 ⟨fun p hp _ => hhead p hp, h.alternating⟩

theorem nil (d : Document) (e i : Nat) (rs : List Region) : Cuts d ⟨e, e⟩ i rs [] where
  tiles := .nil e
  embedded := by
    have hnone : (rs.zipIdx i).filter (fun x => (⟨e, e⟩ : Span).Meets x.1.span) = [] := by
      refine List.filter_eq_nil_iff.2 fun x _ hm => ?_
      have hlt : max e x.1.span.start < min e x.1.span.stop := of_decide_eq_true hm
      omega
    simp [hnone]
  host := by simp
  alternating := .nil

end Cuts

/-- The parts from a position on cut the rest of the range.  If nothing is left, no region may start
    before the end. -/
theorem cuts_partsFrom {x : RegionIndex} (hx : x.document.Indexed) {range : Range} {stop : Nat}
    (hstop : x.document.offsetAt range.stop = stop) {rs : List Region} {i offset : Nat}
    {position : Position} (h : Region.InOrder x.document.text rs)
    (hpos : x.document.offsetAt position = offset) (hle : offset ≤ stop)
    (hend : offset = stop → ∀ r ∈ rs, stop ≤ r.span.start) :
    Cuts x.document ⟨offset, stop⟩ i rs (x.partsFrom range stop i offset position rs) := by
  induction rs generalizing i offset position with
  | nil =>
    rw [partsFrom]
    split
    next hlt => exact (Cuts.nil _ stop i []).before hpos hstop hlt (by simp) (by simp)
    next hlt =>
      obtain rfl : offset = stop := by omega
      exact .nil ..
  | cons r rs ih =>
    rw [partsFrom]
    split
    next hmeets =>
      obtain ⟨hlo, hhi⟩ := hmeets
      have hlt : offset < stop := by
        by_contra hge
        have := hend (by omega) r List.mem_cons_self
        omega
      have hnonempty := h.nonempty r List.mem_cons_self
      -- The part of the region ends at a boundary: its own end or the end of the range.
      have hlast : x.document.offsetAt (x.document.positionAt (min r.span.stop stop)) =
          min r.span.stop stop := by
        refine hx.offsetAt_positionAt_boundary ?_
        rcases min_choice r.span.stop stop with hm | hm
        · rw [hm]; exact h.stop_boundary r List.mem_cons_self
        · rw [hm, ← hstop]; exact hx.offsetAt_boundary _
      have hrest := ih (i := i + 1) h.tail hlast (min_le_right _ _) fun hs r' hr' => by
        have := h.after r' hr'
        omega
      dsimp only
      rw [if_pos (show r.span.start < min r.span.stop stop by omega)]
      by_cases hfront : offset < r.span.start
      · have hfirst := hx.offsetAt_positionAt_boundary (h.start_boundary r List.mem_cons_self)
        rw [if_pos hfront, max_eq_left hfront.le]
        have hin := hrest.inside (i := i) hfirst hlast (by omega) le_rfl rfl h.after
        refine hin.before hpos hfirst hfront (List.forall_mem_cons.2 ⟨le_rfl, fun r' hr' => ?_⟩)
          (by simp)
        have := h.after r' hr'
        omega
      · have hfirst : x.document.offsetAt (x.document.positionAt offset) = offset :=
          hx.offsetAt_positionAt_boundary (hpos ▸ hx.offsetAt_boundary position)
        rw [if_neg hfront, max_eq_right (Nat.le_of_not_lt hfront)]
        exact hrest.inside hfirst hlast (by omega) (Nat.le_of_not_lt hfront) rfl h.after
    next hmeets =>
      refine (ih h.tail hpos hle fun hs r' hr' => hend hs r' (List.mem_cons_of_mem _ hr')).skip ?_
      simp only [Span.Meets]
      omega

theorem cuts_overlapping {x : RegionIndex} (hx : x.document.Indexed)
    (h : Region.InOrder x.document.text x.regions) {range : Range}
    (hrange : x.document.offsetAt range.start < x.document.offsetAt range.stop) :
    Cuts x.document (x.document.spanOf range) 0 x.regions (x.overlapping range) :=
  cuts_partsFrom hx rfl h rfl hrange.le fun heq => absurd heq hrange.ne

/-- **Ranges are cut without a gap.**  The parts of a range that is not empty fill it; each region
    that shares bytes with the range has one part, exactly these bytes; all other parts are in the
    language of the host, share no byte with a region, and are no neighbours of each other. -/
theorem overlapping_tiles (d : Document) (hd : d.Indexed) (rs : List Region)
    (hrs : Region.Apart d.text rs) (range : Range)
    (hrange : d.offsetAt range.start < d.offsetAt range.stop) :
    Cuts d (d.spanOf range) 0 (ofRegions d rs).regions ((ofRegions d rs).overlapping range) :=
  cuts_overlapping (x := ofRegions d rs) hd (inOrder_ofRegions hrs) hrange

end RegionIndex

/-- Two lines, with a character of two bytes on the first one. -/
def twoLines : Document :=
  .ofText ⟨['f', 'i', 'l', 'e'], some {}, .segments [['a', '.', 't', 's']], none, none⟩ "typescript" 1
    ['a', 'é', '\n', 'b', 'c', 'd', 'e', 'f']

/-- Three regions of `twoLines`, not in order; the last two touch. -/
def threeRegions : List Region :=
  [{ span := ⟨6, 8⟩, language := "third", kind := .custom },
    { span := ⟨1, 3⟩, language := "first", kind := .custom },
    { span := ⟨4, 6⟩, language := "second", kind := .custom }]

theorem threeRegions_apart : Region.Apart twoLines.text threeRegions :=
  ⟨by decide, by decide, by decide, by decide⟩

theorem RegionIndex.overlapping_tiles_clipped :
    Region.Apart twoLines.text threeRegions ∧
    twoLines.spanOf ⟨⟨0, 0⟩, ⟨1, 3⟩⟩ = ⟨0, 7⟩ ∧
    ((ofRegions twoLines threeRegions).overlapping ⟨⟨0, 0⟩, ⟨1, 3⟩⟩).map
        (fun p => (p.region, twoLines.spanOf p.range, p.language)) =
      [(none, ⟨0, 1⟩, "typescript"), (some 0, ⟨1, 3⟩, "first"), (none, ⟨3, 4⟩, "typescript"),
        (some 1, ⟨4, 6⟩, "second"), (some 2, ⟨6, 7⟩, "third")] ∧
    Cuts twoLines ⟨0, 7⟩ 0 (ofRegions twoLines threeRegions).regions
      ((ofRegions twoLines threeRegions).overlapping ⟨⟨0, 0⟩, ⟨1, 3⟩⟩) :=
  ⟨threeRegions_apart, by decide, by cbv,
    overlapping_tiles twoLines rfl threeRegions threeRegions_apart ⟨⟨0, 0⟩, ⟨1, 3⟩⟩ (by decide)⟩

end AnnotatedJson
