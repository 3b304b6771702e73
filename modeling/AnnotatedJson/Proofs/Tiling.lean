/-
  Tokens tile their text.

  * `Token.Ended.split`: only the last token is the end of input;
  * `Token.Parted`: between two spans only characters stand that separate tokens;
  * `Token.Scans.parted`, `Token.Scans.slice?_span`: what stands between the tokens of a text and in
    them;
  * `Token.scan_tiles`: the tokens and the gaps between them are the whole text.
-/
import Mathlib
import AnnotatedJson.Proofs.Masking
import AnnotatedJson.Proofs.Placement

namespace AnnotatedJson.Token

variable {seen cs : Text} {ts : List Token}

/-! ## The last token -/

/-- Only the last token is the end of input. -/
theorem Ended.split {before : List Token} {t : Token} (h : Ended (before ++ t :: ts)) :
    (∀ b ∈ before, b.kind ≠ .eof) ∧ Ended (t :: ts) := by
  induction before with
  | nil => exact ⟨by simp, h⟩
  | cons b before ih =>
    have hb : b.kind ≠ .eof := by
      intro hk
      have hnil := h.eq_nil hk
      simp at hnil
    obtain ⟨hbefore, hrest⟩ := ih (h.tail hb)
    exact ⟨List.forall_mem_cons.2 ⟨hb, hbefore⟩, hrest⟩

theorem Ended.exists_last (h : Ended ts) :
    ∃ us last, ts = us ++ [last] ∧ (∀ t ∈ us, t.kind ≠ .eof) ∧ last.kind = .eof := by
  induction h with
  | @last t ht => exact ⟨[], t, rfl, by simp, ht⟩
  | @cons t ts ht _ ih =>
    obtain ⟨us, last, rfl, hus, hlast⟩ := ih
    exact ⟨t :: us, last, rfl, List.forall_mem_cons.2 ⟨ht, hus⟩, hlast⟩

/-- The text from a gap on is the gap, the token after it and the rest. -/
theorem append_gap_read (seen gap : Text) (c : Char) (cs : Text) : seen ++ (gap ++ c :: cs) =
    seen ++ gap ++ (Lexeme.read c cs).1.source ++ (Lexeme.read c cs).2 := by
  rw [List.append_assoc _ _ (Lexeme.read c cs).2, (Lexeme.rule_read c cs).append, List.append_assoc]

/-! ## Between the tokens -/

/-- The second span does not start before the end of the first, and only characters that separate
    tokens stand between the two. -/
def Parted (cs : Text) (s s' : Span) : Prop :=
  s.stop ≤ s'.start ∧ ∃ gap, Text.slice? cs ⟨s.stop, s'.start⟩ = some gap ∧ ∀ c ∈ gap, isGap c = true

theorem parted_append {gap rest : Text} (hgap : ∀ c ∈ gap, isGap c = true) {s s' : Span}
    (hs : s.stop = Text.bytes seen) (hs' : s'.start = Text.bytes (seen ++ gap)) :
    Parted (seen ++ gap ++ rest) s s' := by
  rw [Text.bytes_append] at hs'
  exact ⟨by omega, gap, Text.slice?_eq_some_iff.2 ⟨seen, rest, rfl, hs.symm, by rw [hs']⟩, hgap⟩

/-- **Between the tokens of a text stand gaps**, and so before the first of them. -/
theorem Scans.parted (h : Scans seen cs ts) {s : Span} (hs : s.stop = Text.bytes seen) :
    List.IsChain (Parted (seen ++ cs)) (s :: ts.map Token.span) := by
  induction h generalizing s with
  | @eof seen gap hgap =>
    have hparted : Parted (seen ++ gap ++ []) s (endOfInput seen gap).span := parted_append hgap hs rfl
    simpa using hparted
  | @token seen gap c cs ts hgap hc _ ih =>
    rw [List.map_cons, List.isChain_cons_cons]
    constructor
    · rw [← List.append_assoc]
      exact parted_append hgap hs rfl
    · rw [append_gap_read]
      exact ih rfl

/-! ## In the tokens -/

/-- The source text of a token stands in its span, and only the content of a string differs from it. -/
theorem Scans.slice?_span (h : Scans seen cs ts) :
    ∀ t ∈ ts, t.kind ≠ .string → Text.slice? (seen ++ cs) t.span = some t.value := by
  induction h with
  | @eof seen gap _ =>
    intro t ht _
    rw [List.mem_singleton.1 ht]
    exact Text.slice?_eq_some_iff.2 ⟨seen ++ gap, [], by simp [endOfInput], rfl, by simp [endOfInput]⟩
  | @token seen gap c cs ts _ _ _ ih =>
    intro t ht hk
    rw [append_gap_read]
    rcases List.mem_cons.1 ht with rfl | ht
    · have hvalue := (Lexeme.rule_read c cs).value_eq hk
      refine Text.slice?_eq_some_iff.2 ⟨seen ++ gap, (Lexeme.read c cs).2, ?_, rfl, ?_⟩
      · rw [ofLexeme, hvalue]
      · simp only [ofLexeme, hvalue, Text.bytes_append]
    · exact ih t ht hk

/-! ## The whole text -/

/-- Tokens that tile a text. -/
structure Tiles (cs : Text) (tokens : List Token) : Prop where
  /-- The last token, and no other, is the end of input; it stands at the end of the text. -/
  ends : ∃ ts last, tokens = ts ++ [last] ∧ (∀ t ∈ ts, t.kind ≠ .eof) ∧ last.kind = .eof ∧
    last.span = ⟨Text.bytes cs, Text.bytes cs⟩
  positive : ∀ t ∈ tokens, t.kind ≠ .eof → t.span.start < t.span.stop
  start_boundary : ∀ t ∈ tokens, Text.isBoundary cs t.span.start = true
  stop_boundary : ∀ t ∈ tokens, Text.isBoundary cs t.span.stop = true
  /-- Gaps stand between the tokens and, as the empty span at 0 is listed first, before them. -/
  parted : List.IsChain (Parted cs) (⟨0, 0⟩ :: tokens.map Token.span)
  source : ∀ t ∈ tokens, t.kind ≠ .string → Text.slice? cs t.span = some t.value

/-- **The scanner tiles the text**, and its bound on the number of tokens is never what ends it. -/
theorem scan_tiles (cs : Text) :
    Tiles cs (scan cs) ∧ ∀ fuel, cs.length < fuel → scanFrom fuel 0 cs = scan cs := by
  have hscans := scans_scan cs
  have hplaced := hscans.placed
  refine ⟨⟨?_, fun t ht hk => (hplaced t ht).start_lt_stop hk, fun t ht =>
    (hplaced t ht).start_boundary,
    fun t ht => (hplaced t ht).stop_boundary, hscans.parted rfl, hscans.slice?_span⟩,
    fun fuel hf => hscans.scanFrom_eq fuel hf⟩
  obtain ⟨us, last, hus, hne, hlast⟩ := hscans.ended.exists_last
  obtain ⟨hstart, hstop, -⟩ :=
    (hplaced last (hus ▸ List.mem_append_right _ List.mem_cons_self)).eof hlast
  have hspan : last.span = ⟨Text.bytes cs, Text.bytes cs⟩ := by
    calc last.span = ⟨last.span.start, last.span.stop⟩ := rfl
      _ = ⟨Text.bytes cs, Text.bytes cs⟩ := by rw [hstart, hstop]; rfl
  exact ⟨us, last, hus, hne, hlast, hspan⟩

end AnnotatedJson.Token
