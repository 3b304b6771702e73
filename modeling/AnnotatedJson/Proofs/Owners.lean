/-
  Which region owns a position.

  * `RegionIndex.ownerFrom_embedded`: an owner contains the offset;
  * `RegionIndex.index?_owner`: it is the first region that does;
  * `RegionIndex.isGreatest_fill`: the host begins where the last region before the offset ends;
  * `RegionIndex.Cuts.owner_eq`: cutting a range at regions names the same region, but for the end
    of a region;
  * `RegionIndex.subDocument_offsetAt_of_bytes`: a position has the same offset in the document of
    its owner;
  * `RegionIndex.owner_agrees_with_parts` puts these together.
-/
import Mathlib
import AnnotatedJson.Proofs.Arrangement
import AnnotatedJson.Proofs.Parts

namespace AnnotatedJson

theorem Region.contains_iff {r : Region} {o : Nat} :
    r.contains o = true ↔ r.span.start ≤ o ∧ o ≤ r.span.stop := by simp [contains]

theorem Document.Indexed.offsetAt_zero {d : Document} (h : d.Indexed) : d.offsetAt ⟨0, 0⟩ = 0 := by
  obtain ⟨content, rest, hlines⟩ := (LineIndex.splits_ofText d.text).head
  have hzero : d.index.offset? ⟨0, 0⟩ = some 0 := by
    rw [show d.index = LineIndex.ofText d.text from h]
    cases content <;> simp [LineIndex.offset?, hlines, Line.bytesBefore]
  simp [offsetAt, hzero]

namespace RegionIndex

variable {x : RegionIndex} {o i fill : Nat} {rs : List Region}

/-! ## The first region that contains an offset -/

theorem ownerFrom_embedded {j : Nat} {r : Region} (h : x.ownerFrom o i fill rs = .embedded j r) :
    ∃ k, j = i + k ∧ rs[k]? = some r ∧ r.span.start ≤ o ∧ o ≤ r.span.stop := by
  induction rs generalizing i fill with
  | nil => simp [ownerFrom] at h
  | cons r' rs ih =>
    rw [ownerFrom] at h
    split at h
    next => cases h
    next hstart =>
      split at h
      next hstop =>
        cases h
        exact ⟨0, rfl, rfl, Nat.le_of_not_lt hstart, hstop⟩
      next =>
        obtain ⟨k, rfl, hk, hr⟩ := ih h
        exact ⟨k + 1, by omega, hk, hr⟩

theorem owner_embedded {p : Position} {r : Region} (h : x.owner p = .embedded i r) :
    x.regions[i]? = some r ∧ r.span.start ≤ x.document.offsetAt p ∧
      x.document.offsetAt p ≤ r.span.stop := by
  obtain ⟨k, rfl, hk, hr⟩ := ownerFrom_embedded h
  rw [Nat.zero_add]
  exact ⟨hk, hr⟩

theorem index?_ownerFrom {cs : Text} (h : Region.InOrder cs rs) :
    (x.ownerFrom o i fill rs).index? = (rs.findIdx? (·.contains o)).map (i + ·) := by
  induction rs generalizing i fill with
  | nil => rfl
  | cons r rs ih =>
    have hnonempty := h.nonempty r List.mem_cons_self
    rw [ownerFrom]
    split
    next hlt =>
      -- The search stops here; the regions that are left out start after the offset as well.
      have hnone : (r :: rs).findIdx? (·.contains o) = none := by
        refine List.findIdx?_eq_none_iff.2 (List.forall_mem_cons.2 ⟨?_, fun r' hr' => ?_⟩)
        · simp [Region.contains]; omega
        · have := h.after r' hr'
          simp [Region.contains]; omega
      simp [hnone, RegionAt.index?]
    next hge =>
      split
      next hle =>
        have hr : r.contains o = true := Region.contains_iff.2 ⟨Nat.le_of_not_lt hge, hle⟩
        simp [List.findIdx?_cons, hr, RegionAt.index?]
      next hgt =>
        have hr : r.contains o = false := by simp [Region.contains]; omega
        rw [ih h.tail, List.findIdx?_cons, hr]
        simp [Function.comp_def, Nat.add_assoc, Nat.add_comm 1]

/-- The owner of a position is the first region that contains it. -/
theorem index?_owner {cs : Text} (h : Region.InOrder cs x.regions) {p : Position} :
    (x.owner p).index? = some i ↔
      IsLeast {j | ∃ r, x.regions[j]? = some r ∧ r.contains (x.document.offsetAt p) = true} i := by
  rw [owner, index?_ownerFrom h]
  simp only [Nat.zero_add, Option.map_id', List.findIdx?_eq_some_iff_getElem]
  constructor
  · rintro ⟨hi, hcontains, hbefore⟩
    refine ⟨⟨_, List.getElem?_eq_getElem hi, hcontains⟩, ?_⟩
    rintro j ⟨r, hj, hr⟩
    by_contra hlt
    refine hbefore j (Nat.lt_of_not_le hlt) ?_
    rwa [(List.getElem?_eq_some_iff.1 hj).2]
  · rintro ⟨⟨r, hr, hcontains⟩, hleast⟩
    obtain ⟨hi, rfl⟩ := List.getElem?_eq_some_iff.1 hr
    refine ⟨hi, hcontains, fun j hj hcj => ?_⟩
    have := hleast ⟨_, List.getElem?_eq_getElem (hj.trans hi), hcj⟩
    omega

/-! ## The host around an offset -/

/-- If no region contains the offset, the host begins at the last end of a region before it. -/
theorem isGreatest_fill {cs : Text} (h : Region.InOrder cs rs) (hfill : ∀ r ∈ rs, fill ≤ r.span.start)
    (hnone : (x.ownerFrom o i fill rs).index? = none) :
    ∃ f, x.ownerFrom o i fill rs = .host (.host f (Text.bytes x.document.text) x.hostLanguage) ∧
      IsGreatest (insert fill {n | ∃ r ∈ rs, r.span.stop = n ∧ n < o}) f := by
  induction rs generalizing i fill with
  | nil =>
    refine ⟨fill, rfl, Set.mem_insert _ _, ?_⟩
    rintro n (rfl | ⟨r, hr, -⟩)
    · exact le_rfl
    · cases hr
  | cons r rs ih =>
    have hnonempty := h.nonempty r List.mem_cons_self
    rw [ownerFrom] at hnone ⊢
    split
    next hlt =>
      refine ⟨fill, rfl, Set.mem_insert _ _, ?_⟩
      rintro n (rfl | ⟨r', hr', rfl, hstop⟩)
      · exact le_rfl
      · rcases List.mem_cons.1 hr' with rfl | hr'
        · omega
        · have := h.after r' hr'
          have := h.tail.nonempty r' hr'
          omega
    next hge =>
      rw [if_neg hge] at hnone
      split at hnone
      next => cases hnone
      next hgt =>
        rw [if_neg hgt]
        obtain ⟨f, hf, hmem, hmax⟩ := ih h.tail h.after hnone
        have hle : r.span.stop ≤ f := hmax (Set.mem_insert _ _)
        refine ⟨f, hf, Or.inr ?_, ?_⟩
        · rcases hmem with rfl | ⟨r', hr', hstop⟩
          · exact ⟨r, List.mem_cons_self, rfl, Nat.lt_of_not_le hgt⟩
          · exact ⟨r', List.mem_cons_of_mem _ hr', hstop⟩
        · rintro n (rfl | ⟨r', hr', rfl, hstop⟩)
          · have := hfill r List.mem_cons_self
            omega
          · rcases List.mem_cons.1 hr' with rfl | hr'
            · exact hle
            · exact hmax (Or.inr ⟨r', hr', rfl, hstop⟩)

/-! ## Owners and parts -/

namespace Cuts

variable {d : Document} {s : Span} {parts : List LanguagePart} {q : LanguagePart}

theorem region_eq_some (h : Cuts d s 0 rs parts) (hq : q ∈ parts) (hi : q.region = some i) :
    ∃ r, rs[i]? = some r ∧ d.spanOf q.range = s.meet r.span := by
  have hmem : (i, d.spanOf q.range, q.language) ∈
      parts.filterMap fun p => p.region.map fun j => (j, d.spanOf p.range, p.language) :=
    List.mem_filterMap.2 ⟨q, hq, by simp [hi]⟩
  rw [h.embedded] at hmem
  obtain ⟨⟨r, j⟩, hr, heq⟩ := List.mem_map.1 hmem
  obtain ⟨rfl, hspan, -⟩ : j = i ∧ s.meet r.span = d.spanOf q.range ∧ r.language = q.language := by
    simpa using heq
  exact ⟨r, List.mk_mem_zipIdx_iff_getElem?.1 (List.mem_of_mem_filter hr), hspan.symm⟩

/-- The part at an offset belongs to the owner of the offset, unless a region ends there. -/
theorem owner_eq (h : Cuts d s 0 x.regions parts) (hx : Region.InOrder d.text x.regions)
    {p : Position} (hq : q ∈ parts) (hlo : (d.spanOf q.range).start ≤ x.document.offsetAt p)
    (hhi : x.document.offsetAt p < (d.spanOf q.range).stop)
    (hend : ∀ r ∈ x.regions, r.span.stop ≠ x.document.offsetAt p) :
    q.region = (x.owner p).index? := by
  cases hr : q.region with
  | none =>
    obtain ⟨-, hhost⟩ := h.host q hq hr
    symm
    rw [Option.eq_none_iff_forall_ne_some]
    intro i hi
    obtain ⟨⟨r, hri, hcontains⟩, -⟩ := (index?_owner hx).1 hi
    have hmem := List.mem_of_getElem? hri
    have hne := hend r hmem
    have hmeets := hhost r hmem
    have := Region.contains_iff.1 hcontains
    simp only [Span.Meets] at hmeets
    omega
  | some i =>
    obtain ⟨r, hri, hspan⟩ := h.region_eq_some hq hr
    symm
    simp only [hspan, Span.meet] at hlo hhi
    refine (index?_owner hx).2 ⟨⟨r, hri, Region.contains_iff.2 ⟨by omega, by omega⟩⟩, ?_⟩
    rintro j ⟨r', hrj, hcontains⟩
    by_contra hlt
    -- An earlier region ends before this one starts, so that it could only end at the offset.
    have hbefore := hx.stop_le hrj hri (Nat.lt_of_not_le hlt)
    have hne := hend r' (List.mem_of_getElem? hrj)
    have := Region.contains_iff.1 hcontains
    omega

end Cuts

/-- A region owns its end. -/
theorem owner_stop {cs : Text} (h : Region.InOrder cs x.regions) {p : Position} {r : Region}
    (hi : x.regions[i]? = some r) (hstop : r.span.stop = x.document.offsetAt p) :
    (x.owner p).index? = some i := by
  have hnonempty := h.nonempty r (List.mem_of_getElem? hi)
  refine (index?_owner h).2 ⟨⟨r, hi, Region.contains_iff.2 ⟨by omega, hstop.ge⟩⟩, ?_⟩
  rintro j ⟨r', hj, hcontains⟩
  by_contra hlt
  have hbefore := h.stop_le hj hi (Nat.lt_of_not_le hlt)
  have := Region.contains_iff.1 hcontains
  omega

/-! ## Documents of owners -/

theorem subDocument_offsetAt_of_bytes {r : Region} {p : Position}
    (hbytes : Text.bytes (r.maskedText x.document.text) = r.span.stop)
    (hle : r.span.stop ≤ Text.bytes x.document.text) (i : Nat)
    (ho : x.document.offsetAt p ≤ r.span.stop) :
    (x.subDocument i r).offsetAt p = x.document.offsetAt p := by
  have hsub : Text.bytes (x.subDocument i r).text = r.span.stop := hbytes
  have hindex : (x.subDocument i r).index = x.document.index := rfl
  unfold Document.offsetAt at ho ⊢
  rw [hsub, hindex]
  cases hp : x.document.index.offset? p with
  | none =>
    rw [hp] at ho
    simp only [Option.getD_none, min_self] at ho ⊢
    omega
  | some o =>
    rw [hp] at ho
    simp only [Option.getD_some] at ho ⊢
    omega

/-- **Positions and ranges are routed alike.**  The owner of a character boundary is the first region
    that contains it; without one it is the host from the last end of a region before the boundary to
    the end of the text.  The whole document, cut into parts, has a part at the boundary, and this part
    belongs to the owner, unless a region ends at the boundary, which then owns it.  A position has the
    same offset in the document of its owner as in the host, if the owner shows the masked text. -/
theorem owner_agrees_with_parts (d : Document) (hd : d.Indexed) (rs : List Region)
    (hrs : Region.Apart d.text rs) :
    (∀ o, Text.isBoundary d.text o = true → o < Text.bytes d.text →
      (∀ i, ((ofRegions d rs).owner (d.positionAt o)).index? = some i ↔
        IsLeast {j | ∃ r, (ofRegions d rs).regions[j]? = some r ∧ r.contains o = true} i) ∧
      (((ofRegions d rs).owner (d.positionAt o)).index? = none →
        ∃ f, (ofRegions d rs).owner (d.positionAt o) =
            .host (.host f (Text.bytes d.text) d.language) ∧
          IsGreatest (insert 0 {n | ∃ r ∈ rs, r.span.stop = n ∧ n < o}) f) ∧
      (∃ q ∈ (ofRegions d rs).overlapping (ofRegions d rs).fullRange,
        (d.spanOf q.range).start ≤ o ∧ o < (d.spanOf q.range).stop) ∧
      (∀ q ∈ (ofRegions d rs).overlapping (ofRegions d rs).fullRange,
        (d.spanOf q.range).start ≤ o → o < (d.spanOf q.range).stop →
        (∀ r ∈ rs, r.span.stop ≠ o) →
        q.region = ((ofRegions d rs).owner (d.positionAt o)).index?) ∧
      (∀ i r, (ofRegions d rs).regions[i]? = some r → r.span.stop = o →
        (ofRegions d rs).owner (d.positionAt o) = .embedded i r)) ∧
    (∀ p i r, (ofRegions d rs).owner p = .embedded i r →
      r.maskedText d.text = Text.maskPrefix d.text r.span.start r.span.stop →
      ((ofRegions d rs).subDocumentAt p).offsetAt p = d.offsetAt p) := by
  have hx : Region.InOrder d.text (ofRegions d rs).regions := inOrder_ofRegions hrs
  have hmem : ∀ r, r ∈ (ofRegions d rs).regions ↔ r ∈ rs := fun r => (regions_perm d rs).mem_iff
  refine ⟨fun o hb ho => ?_, fun p i r hr htext => ?_⟩
  · have hoffset : (ofRegions d rs).document.offsetAt (d.positionAt o) = o :=
      hd.offsetAt_positionAt_boundary hb
    have hspan : d.spanOf (ofRegions d rs).fullRange = ⟨0, Text.bytes d.text⟩ := by
      have hstop := hd.offsetAt_positionAt_boundary (Text.isBoundary_bytes d.text)
      simp only [Document.spanOf, fullRange, ofRegions, hd.offsetAt_zero, hstop]
    have hcuts : Cuts d ⟨0, Text.bytes d.text⟩ 0 (ofRegions d rs).regions
        ((ofRegions d rs).overlapping (ofRegions d rs).fullRange) := by
      have hlt : (d.spanOf (ofRegions d rs).fullRange).start <
          (d.spanOf (ofRegions d rs).fullRange).stop := by
        rw [hspan]
        exact (Nat.zero_le o).trans_lt ho
      rw [← hspan]
      exact cuts_overlapping (x := ofRegions d rs) hd hx hlt
    refine ⟨fun i => ?_, fun hnone => ?_, ?_, fun q hq hlo hhi hend => ?_, fun i r hi hstop => ?_⟩
    · rw [index?_owner hx, hoffset]
    · obtain ⟨f, hf, hgreatest⟩ := isGreatest_fill hx (fun r _ => Nat.zero_le _) hnone
      refine ⟨f, hf, ?_⟩
      simpa only [hmem, hoffset] using hgreatest
    · obtain ⟨t, ht, hin⟩ := hcuts.tiles.exists_mem (Nat.zero_le o) ho
      obtain ⟨q, hq, rfl⟩ := List.mem_map.1 ht
      exact ⟨q, hq, hin⟩
    · refine hcuts.owner_eq hx hq (by rwa [hoffset]) (by rwa [hoffset]) fun r hr => ?_
      rw [hoffset]
      exact hend r ((hmem r).1 hr)
    · have hindex := owner_stop hx hi (hstop.trans hoffset.symm)
      cases ho : (ofRegions d rs).owner (d.positionAt o) with
      | host g => rw [ho] at hindex; cases hindex
      | embedded j r' =>
        rw [ho] at hindex
        cases hindex
        have := (owner_embedded ho).1
        rw [hi] at this
        cases this
        rfl
  · obtain ⟨hi, -, hstop⟩ := owner_embedded hr
    have hrmem := (hmem r).1 (List.mem_of_getElem? hi)
    have hboundary := hrs.stop_boundary r hrmem
    have hbytes : Text.bytes (r.maskedText d.text) = r.span.stop := by
      rw [htext]
      exact Text.bytes_maskPrefix (hrs.nonempty r hrmem).le (hrs.start_boundary r hrmem) hboundary
    simp only [subDocumentAt, hr]
    exact subDocument_offsetAt_of_bytes hbytes (Text.isBoundary_le hboundary) i hstop

/-- Two of the three regions touch at offset 6; offset 3 is the end of another one. -/
theorem owner_agrees_with_parts_touching :
    Region.Apart twoLines.text threeRegions ∧
    ((ofRegions twoLines threeRegions).owner ⟨1, 2⟩).index? = some 1 ∧
    ((ofRegions twoLines threeRegions).overlapping (ofRegions twoLines threeRegions).fullRange).map
        (fun q => (q.region, twoLines.spanOf q.range)) =
      [(none, ⟨0, 1⟩), (some 0, ⟨1, 3⟩), (none, ⟨3, 4⟩), (some 1, ⟨4, 6⟩), (some 2, ⟨6, 8⟩),
        (none, ⟨8, 9⟩)] ∧
    (∀ o, Text.isBoundary twoLines.text o = true → o < Text.bytes twoLines.text →
      ∀ q ∈ (ofRegions twoLines threeRegions).overlapping (ofRegions twoLines threeRegions).fullRange,
        (twoLines.spanOf q.range).start ≤ o → o < (twoLines.spanOf q.range).stop →
        (∀ r ∈ threeRegions, r.span.stop ≠ o) →
        q.region = ((ofRegions twoLines threeRegions).owner (twoLines.positionAt o)).index?) ∧
    ((ofRegions twoLines threeRegions).subDocumentAt ⟨1, 2⟩).offsetAt ⟨1, 2⟩ = 6 := by
  obtain ⟨hoffsets, hdocuments⟩ := owner_agrees_with_parts twoLines rfl threeRegions threeRegions_apart
  refine ⟨threeRegions_apart, by cbv, by cbv, fun o hb ho => (hoffsets o hb ho).2.2.2.1, ?_⟩
  exact hdocuments ⟨1, 2⟩ 1 { span := ⟨4, 6⟩, language := "second", kind := .custom } (by cbv) rfl

end RegionIndex

end AnnotatedJson
