/-
  Where tokens, errors and comments lie.

  * `Token.Placed`: a token lies in its text, between character boundaries, and covers
    at least one byte unless it is the end of input;
  * `Token.Scans.placed`, `Token.Scans.ordered`: the tokens of a text are placed, one
    after the other;
  * `Moves.start_le`: the cursor only moves forward;
  * `Moves.errors_place`, `Moves.comments_place`: where problems and comments are
    recorded.
-/
import Mathlib
import AnnotatedJson.Proofs.Cursor

namespace AnnotatedJson

namespace Token

/-! ## Tokens -/

/-- A token in its place. -/
structure Placed (cs : Text) (t : Token) : Prop where
  start_boundary : Text.isBoundary cs t.span.start = true
  stop_boundary : Text.isBoundary cs t.span.stop = true
  start_lt_stop : t.kind ≠ .eof → t.span.start < t.span.stop
  eof : t.kind = .eof → t.span.start = Text.bytes cs ∧ t.span.stop = Text.bytes cs ∧ t.fault = none
  mark : t.kind = .comma ∨ t.kind = .colon → t.span.stop = t.span.start + 1

theorem Placed.stop_le {cs : Text} {t : Token} (h : Placed cs t) : t.span.stop ≤ Text.bytes cs :=
  Text.isBoundary_le h.stop_boundary

theorem Placed.start_le_stop {cs : Text} {t : Token} (h : Placed cs t) :
    t.span.start ≤ t.span.stop := by
  by_cases hk : t.kind = .eof
  · obtain ⟨h1, h2, -⟩ := h.eof hk
    omega
  · exact (h.start_lt_stop hk).le

end Token

/-- A comma or a colon is one byte. -/
theorem Lexeme.Rule.mark {c : Char} {cs : Text} {r : Lexeme × Text} (h : Rule c cs r)
    (hk : r.1.kind = .comma ∨ r.1.kind = .colon) : Text.bytes r.1.source = 1 := by
  cases h with
  | @single k hs =>
    have hc : c = ',' ∨ c = ':' := by
      simp only [plain] at hk
      unfold single? at hs
      split_ifs at hs with h₁ h₂ h₃ h₄ h₅ h₆ <;> cases hs <;> simp_all
    rcases hc with rfl | rfl <;> rfl
  | string _ | blockComment _ _ | digits _ | minus _ _ => simp at hk
  | lineComment _ _ | slash _ => simp [plain] at hk
  | word => rcases word_kind_cases c cs with h | h | h | h <;> rw [h] at hk <;> simp at hk

namespace Token

section
variable {seen cs : Text} {ts : List Token}

/-- **The tokens of a text are placed in it.** -/
theorem Scans.placed (h : Scans seen cs ts) : ∀ t ∈ ts, Placed (seen ++ cs) t := by
  induction h with
  | @eof seen gap _ =>
    intro t ht
    rw [List.mem_singleton.1 ht]
    have hb : Text.isBoundary (seen ++ gap) (Text.bytes (seen ++ gap)) = true := by
      simpa using Text.isBoundary_append (seen ++ gap) []
    exact ⟨hb, hb, fun hk => absurd rfl hk, fun _ => ⟨rfl, rfl, rfl⟩, by simp [endOfInput]⟩
  | @token seen gap c cs ts _ _ _ ih =>
    intro t ht
    have hrule := Lexeme.rule_read c cs
    have htext : seen ++ (gap ++ c :: cs) =
        seen ++ gap ++ (Lexeme.read c cs).1.source ++ (Lexeme.read c cs).2 := by
      rw [← hrule.append]; simp
    rcases List.mem_cons.1 ht with rfl | ht
    · refine ⟨?_, ?_, fun _ => ?_, fun hk => absurd hk hrule.kind_ne_eof, fun hk => ?_⟩
      · rw [htext, List.append_assoc (seen ++ gap)]
        exact Text.isBoundary_append _ _
      · rw [htext]
        exact Text.isBoundary_append _ _
      · have := Text.bytes_pos hrule.source_ne_nil
        simp only [ofLexeme, Text.bytes_append]
        omega
      · have := hrule.mark hk
        simp only [ofLexeme, Text.bytes_append] at this ⊢
        omega
    · rw [htext]
      exact ih t ht

theorem Scans.bytes_le_start (h : Scans seen cs ts) : ∀ t ∈ ts, Text.bytes seen ≤ t.span.start := by
  induction h with
  | eof _ =>
    intro t ht
    rw [List.mem_singleton.1 ht]
    simp [endOfInput]
  | token _ _ _ ih =>
    intro t ht
    rcases List.mem_cons.1 ht with rfl | ht
    · simp [ofLexeme]
    · have := ih t ht
      simp only [Text.bytes_append] at this
      omega

/-- **The tokens of a text come one after the other.** -/
theorem Scans.ordered (h : Scans seen cs ts) :
    ts.Pairwise fun a b => a.span.stop ≤ b.span.start := by
  induction h with
  | eof _ => exact List.pairwise_singleton _ _
  | token _ _ h ih => exact List.pairwise_cons.2 ⟨h.bytes_le_start, ih⟩

end

end Token

namespace Cursor

/-! ## The cursor -/

/-- A cursor at a token of a text. -/
structure On (cs : Text) (p : Cursor) : Prop extends Ready p where
  ordered : p.stream.Pairwise fun a b => a.span.stop ≤ b.span.start
  placed : ∀ t ∈ p.stream, t.Placed cs

section
variable {ctx : ParseContext} {all : List Token} {cs : Text} {p q : Cursor}

theorem On.of_suffix (h : On cs p) (hs : q.stream <:+ p.stream) (hq : Ready q) : On cs q :=
  ⟨hq, h.ordered.sublist hs.sublist, fun t ht => h.placed t (hs.subset ht)⟩

theorem Moves.on (h : Moves ctx all p q) (hp : On cs p) : On cs q := by
  obtain ⟨hs, hq⟩ := h.suffix hp.toReady
  exact hp.of_suffix hs hq

theorem On.fresh (h : On cs p) : On cs p.fresh.2 :=
  h.of_suffix (List.suffix_refl _) (h.toReady.of_stream rfl)

theorem On.current (h : On cs p) : p.current.Placed cs := h.placed _ (List.mem_cons_self ..)

theorem On.start_lt_stop (h : On cs p) (hk : p.kind ≠ .eof) : p.start < p.stop :=
  h.current.start_lt_stop hk

theorem On.stop_le_of_mem (h : On cs p) {t : Token} (ht : t ∈ p.rest) : p.stop ≤ t.span.start :=
  (List.pairwise_cons.1 h.ordered).1 t ht

/-- **The cursor only moves forward.** -/
theorem Moves.start_le (h : Moves ctx all p q) (hp : On cs p) : p.start ≤ q.start := by
  have hmem : q.current ∈ p.stream := (h.suffix hp.toReady).1.subset (List.mem_cons_self ..)
  rcases List.mem_cons.1 hmem with he | hmem
  · exact (congrArg (fun t => t.span.start) he).ge
  · exact hp.current.start_le_stop.trans (hp.stop_le_of_mem hmem)

theorem On.stop_le_advance (h : On cs p) (hk : p.kind ≠ .eof) : p.stop ≤ (p.advance ctx).start :=
  h.stop_le_of_mem ((advance_suffix ctx h.toReady hk).subset (List.mem_cons_self ..))

/-! ## Errors and comments -/

theorem report_errors_mem {problem : Problem} {span : Span} {e : SyntaxError}
    (h : e ∈ (p.report problem span).errors) : e ∈ p.errors ∨ e.span = span := by
  rcases p.report_errors problem span with he | he <;> rw [he] at h
  · exact Or.inl h
  · rcases List.mem_append.1 h with h | h
    · exact Or.inl h
    · rw [List.mem_singleton.1 h]
      exact Or.inr rfl

theorem noteFault_errors_mem {t : Token} {e : SyntaxError} (h : e ∈ (p.noteFault t).errors) :
    e ∈ p.errors ∨ t.fault ≠ none ∧ e.span = t.span := by
  unfold noteFault at h
  split at h
  · next f hf => exact (report_errors_mem h).imp id fun he => ⟨by rw [hf]; simp, he⟩
  · exact Or.inl h

theorem noteComment_errors_mem {t : Token} {e : SyntaxError}
    (h : e ∈ (p.noteComment ctx t).errors) : e ∈ p.errors ∨ e.span = t.span := by
  unfold noteComment at h
  dsimp only at h
  split at h
  · exact Or.inl h
  · exact report_errors_mem h

theorem noteComment_comments_mem {t : Token} {s : Span} (h : s ∈ (p.noteComment ctx t).comments) :
    s ∈ p.comments ∨ s = t.span := by
  unfold noteComment at h
  dsimp only at h
  split at h <;> simpa using h

theorem noteFault_comments (t : Token) : (p.noteFault t).comments = p.comments := by
  unfold noteFault
  split <;> simp

theorem draw_errors_place {ts : List Token} (ha : ts ⊆ all)
    (hf : ∀ t ∈ all, t.kind = .eof → t.fault = none) (broken : Bool) {e : SyntaxError}
    (h : e ∈ (p.draw ctx broken ts).errors) : e ∈ p.errors ∨ Place ctx all e.span := by
  induction ts generalizing p broken with
  | nil => exact Or.inl h
  | cons t ts ih =>
    have ht : t ∈ all := ha (List.mem_cons_self ..)
    -- What is wrong inside the token is shown at the token.
    have hfault : e ∈ (noteFault { p with drawn := p.drawn + 1 } t).errors →
        e ∈ p.errors ∨ Place ctx all e.span := by
      intro h
      rcases noteFault_errors_mem h with h | ⟨hne, he⟩
      · exact Or.inl h
      · exact Or.inr (he ▸ .token ht fun hk => hne (hf t ht hk))
    rw [draw] at h
    split at h
    · next hk =>
      rcases ih (fun x hx => ha (List.mem_cons_of_mem _ hx)) _ h with h | h
      · rcases noteComment_errors_mem h with h | he
        · exact hfault h
        · exact Or.inr (he ▸ .token ht fun hk' => by rw [hk'] at hk; cases hk)
      · exact Or.inr h
    · exact hfault h

theorem draw_comments_place {ts : List Token} (ha : ts ⊆ all) (broken : Bool) {s : Span}
    (h : s ∈ (p.draw ctx broken ts).comments) :
    s ∈ p.comments ∨ ∃ t ∈ all, t.kind.isComment = true ∧ s = t.span := by
  induction ts generalizing p broken with
  | nil => exact Or.inl h
  | cons t ts ih =>
    have hfault : (noteFault { p with drawn := p.drawn + 1 } t).comments = p.comments :=
      noteFault_comments t
    rw [draw] at h
    split at h
    · next hk =>
      rcases ih (fun x hx => ha (List.mem_cons_of_mem _ hx)) _ h with h | h
      · rcases noteComment_comments_mem h with h | he
        · exact Or.inl (hfault ▸ h)
        · exact Or.inr ⟨t, ha (List.mem_cons_self ..), hk, he⟩
      · exact Or.inr h
    · exact Or.inl (hfault ▸ h)

/-- **Problems are shown at tokens, at commas and at the end mark.** -/
theorem Moves.errors_place (h : Moves ctx all p q) (hp : Ready p) (ha : p.stream ⊆ all)
    (hf : ∀ t ∈ all, t.kind = .eof → t.fault = none) {e : SyntaxError} (he : e ∈ q.errors) :
    e ∈ p.errors ∨ Place ctx all e.span := by
  induction h with
  | refl => exact Or.inl he
  | tail h hm ih =>
    cases hm with
    | report hpl =>
      rcases report_errors_mem he with he | he
      · exact ih he
      · exact Or.inr (he ▸ hpl)
    | advance _ =>
      have hs := Moves.subset h hp ha
      rcases draw_errors_place (fun x hx => hs (List.mem_cons_of_mem _ hx)) hf false he with he | he
      · exact ih he
      · exact Or.inr he
    | fresh => exact ih he

/-- **Comments are recorded where they stand.** -/
theorem Moves.comments_place (h : Moves ctx all p q) (hp : Ready p) (ha : p.stream ⊆ all)
    {s : Span} (hs : s ∈ q.comments) :
    s ∈ p.comments ∨ ∃ t ∈ all, t.kind.isComment = true ∧ s = t.span := by
  induction h with
  | refl => exact Or.inl hs
  | tail h hm ih =>
    cases hm with
    | report _ => exact ih (by simpa using hs)
    | advance _ =>
      have hsub := Moves.subset h hp ha
      rcases draw_comments_place (fun x hx => hsub (List.mem_cons_of_mem _ hx)) false hs with hs | hs
      · exact ih hs
      · exact Or.inr hs
    | fresh => exact ih hs

end

end Cursor

/-! ## The end mark -/

namespace Literal

theorem endMarkFrom_spec (cs : Text) (offset : Nat) (last : Option Span)
    (hl : ∀ s ∈ last, s.start < s.stop ∧ s.stop ≤ offset) :
    (endMarkFrom offset last cs).stop ≤ offset + Text.bytes cs ∧
      (0 < offset + Text.bytes cs →
        (endMarkFrom offset last cs).start < (endMarkFrom offset last cs).stop) := by
  induction cs generalizing offset last with
  | nil =>
    cases last with
    | none => simp only [endMarkFrom, Option.getD_none, Text.bytes_nil]; omega
    | some s =>
      have := hl s rfl
      simp only [endMarkFrom, Option.getD_some, Text.bytes_nil]
      omega
  | cons c cs ih =>
    have hc := c.utf8Size_pos
    rw [endMarkFrom, Text.bytes_cons, ← Nat.add_assoc]
    refine ih _ _ fun s hs => ?_
    split at hs
    · have := hl s hs
      omega
    · cases hs
      exact ⟨by simp only; omega, le_refl _⟩

/-- The end mark lies in the text. -/
theorem endMark_spec (cs : Text) : (endMark cs).stop ≤ Text.bytes cs ∧
    ((endMark cs).start < (endMark cs).stop ∨ cs = [] ∧ (endMark cs).start = (endMark cs).stop) := by
  obtain ⟨h1, h2⟩ := endMarkFrom_spec cs 0 none (by simp)
  rw [Nat.zero_add] at h1 h2
  refine ⟨h1, ?_⟩
  by_cases hcs : cs = []
  · subst hcs
    exact Or.inr ⟨rfl, rfl⟩
  · exact Or.inl (h2 (Text.bytes_pos hcs))

end Literal

/-- A place that may be blamed lies in the text. -/
theorem Cursor.Place.within {ctx : ParseContext} {all : List Token} {cs : Text} {s : Span}
    (h : Place ctx all s) (hall : ∀ t ∈ all, t.Placed cs) (hm : ctx.endMark = Literal.endMark cs) :
    s.stop ≤ Text.bytes cs ∧ (s.start < s.stop ∨ cs = [] ∧ s.start = s.stop) := by
  cases h with
  | @token t ht hk => exact ⟨(hall t ht).stop_le, Or.inl ((hall t ht).start_lt_stop hk)⟩
  | @shown t ht hn =>
    refine ⟨(hall t ht).stop_le, ?_⟩
    by_cases hk : t.kind = .eof
    · obtain ⟨h1, h2, -⟩ := (hall t ht).eof hk
      have h0 : Text.bytes cs = 0 := by
        by_contra h0
        exact hn ⟨by omega, by omega⟩
      have hcs : cs = [] := by
        by_contra hcs
        exact absurd h0 (Text.bytes_pos hcs).ne'
      exact Or.inr ⟨hcs, by omega⟩
    · exact Or.inl ((hall t ht).start_lt_stop hk)
  | @comma t ht hk =>
    have h1 := (hall t ht).mark (Or.inl hk)
    have h2 := (hall t ht).stop_le
    exact ⟨by simp only; omega, Or.inl (by simp only; omega)⟩
  | endMark => rw [hm]; exact Literal.endMark_spec cs

end AnnotatedJson
