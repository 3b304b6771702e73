/-
  The moves of the parser.

  * `Cursor.stream` is what a cursor still has to read, `Cursor.Ready` says that it
    ends with the end of input and that no comment is current;
  * `advance_stream`: moving on takes the current token and the comments after it;
  * `Cursor.Move` is what the parser does at a time: `Moves.suffix`, only tokens of
    the stream are ever read, in their order;
  * `recover_shrinks`: recovering takes a token, unless it may stop at once.
-/
import Mathlib
import AnnotatedJson.Literal.Parse
import AnnotatedJson.Proofs.Scan

namespace AnnotatedJson.Cursor

variable (ctx : ParseContext)

/-- The tokens that are still to be read, the current one first. -/
def stream (p : Cursor) : List Token := p.current :: p.rest

/-- The stream ends with the end of input, and no comment is current. -/
structure Ready (p : Cursor) : Prop where
  ended : Token.Ended p.stream
  plain : p.kind.isComment = false

/-! ## Reporting moves nothing -/

section
variable (p : Cursor) (problem : Problem) (span : Span)

@[simp] theorem report_current : (p.report problem span).current = p.current := by
  unfold report; split <;> rfl

@[simp] theorem report_rest : (p.report problem span).rest = p.rest := by
  unfold report; split <;> rfl

@[simp] theorem report_nextId : (p.report problem span).nextId = p.nextId := by
  unfold report; split <;> rfl

@[simp] theorem report_afterBreak : (p.report problem span).afterBreak = p.afterBreak := by
  unfold report; split <;> rfl

@[simp] theorem report_comments : (p.report problem span).comments = p.comments := by
  unfold report; split <;> rfl

@[simp] theorem report_stream : (p.report problem span).stream = p.stream := by simp [stream]

@[simp] theorem report_kind : (p.report problem span).kind = p.kind := by simp [kind]

@[simp] theorem report_start : (p.report problem span).start = p.start := by simp [start]

@[simp] theorem report_stop : (p.report problem span).stop = p.stop := by simp [stop]

theorem report_errors : (p.report problem span).errors = p.errors ∨
    (p.report problem span).errors = p.errors ++ [⟨problem, span⟩] := by
  unfold report; split <;> simp

@[simp] theorem blame_current : (p.blame ctx problem).current = p.current := by simp [blame]

@[simp] theorem blame_rest : (p.blame ctx problem).rest = p.rest := by simp [blame]

@[simp] theorem blame_nextId : (p.blame ctx problem).nextId = p.nextId := by simp [blame]

@[simp] theorem blame_afterBreak : (p.blame ctx problem).afterBreak = p.afterBreak := by simp [blame]

@[simp] theorem blame_comments : (p.blame ctx problem).comments = p.comments := by simp [blame]

@[simp] theorem blame_stream : (p.blame ctx problem).stream = p.stream := by simp [blame]

@[simp] theorem blame_kind : (p.blame ctx problem).kind = p.kind := by simp [blame]

@[simp] theorem blame_start : (p.blame ctx problem).start = p.start := by simp [blame]

@[simp] theorem blame_stop : (p.blame ctx problem).stop = p.stop := by simp [blame]

end

@[simp] theorem fresh_rest (p : Cursor) : p.fresh.2.rest = p.rest := rfl

@[simp] theorem fresh_stream (p : Cursor) : p.fresh.2.stream = p.stream := rfl

@[simp] theorem fresh_kind (p : Cursor) : p.fresh.2.kind = p.kind := rfl

@[simp] theorem fresh_nextId (p : Cursor) : p.fresh.2.nextId = p.nextId + 1 := rfl

theorem Ready.of_stream {p q : Cursor} (h : Ready p) (hs : q.stream = p.stream) : Ready q := by
  have hc : q.current = p.current := (List.cons.inj hs).1
  exact ⟨hs ▸ h.ended, by unfold kind; rw [hc]; exact h.plain⟩

/-! ## Moving on -/

@[simp] theorem noteFault_nextId (p : Cursor) (t : Token) : (p.noteFault t).nextId = p.nextId := by
  unfold noteFault; split <;> simp

@[simp] theorem noteComment_nextId (p : Cursor) (t : Token) :
    (p.noteComment ctx t).nextId = p.nextId := by
  unfold noteComment; dsimp only; split <;> simp

@[simp] theorem draw_nextId (p : Cursor) (broken : Bool) (ts : List Token) :
    (p.draw ctx broken ts).nextId = p.nextId := by
  induction ts generalizing p broken with
  | nil => rfl
  | cons t ts ih =>
    rw [draw]
    split
    · rw [ih]; simp
    · simp

@[simp] theorem advance_nextId (p : Cursor) : (p.advance ctx).nextId = p.nextId := draw_nextId ..

/-- Drawing passes comments up to the first token that is none. -/
theorem draw_stream (p : Cursor) (broken : Bool) {ts : List Token} (h : Token.Ended ts) :
    ∃ ds, ts = ds ++ (p.draw ctx broken ts).stream ∧ (∀ d ∈ ds, d.kind.isComment = true) ∧
      Ready (p.draw ctx broken ts) := by
  induction h generalizing p broken with
  | @last t ht =>
    have hn : t.kind.isComment = false := by rw [ht]; rfl
    refine ⟨[], ?_, by simp, ?_⟩
    · simp [draw, hn, stream]
    · exact ⟨by simpa [draw, hn, stream] using .last ht, by simp [draw, hn, kind]⟩
  | @cons t ts ht hts ih =>
    by_cases hc : t.kind.isComment = true
    · rw [draw, if_pos hc]
      obtain ⟨ds, h1, h2, h3⟩ := ih (noteComment ctx (noteFault { p with drawn := p.drawn + 1 } t) t)
        (broken || t.afterBreak || t.value.contains '\n')
      refine ⟨t :: ds, by rw [List.cons_append, ← h1], ?_, h3⟩
      intro d hd
      rcases List.mem_cons.1 hd with rfl | hd
      · exact hc
      · exact h2 d hd
    · have hn : t.kind.isComment = false := by simpa using hc
      refine ⟨[], ?_, by simp, ?_⟩
      · simp [draw, hn, stream]
      · exact ⟨by simpa [draw, hn, stream] using .cons ht hts, by simp [draw, hn, kind]⟩

theorem Ready.rest_ended {p : Cursor} (h : Ready p) (hk : p.kind ≠ .eof) : Token.Ended p.rest :=
  h.ended.tail hk

/-- **Moving on takes the current token and the comments after it.** -/
theorem advance_stream {p : Cursor} (h : Ready p) (hk : p.kind ≠ .eof) :
    ∃ ds, p.rest = ds ++ (p.advance ctx).stream ∧ (∀ d ∈ ds, d.kind.isComment = true) ∧
      Ready (p.advance ctx) :=
  draw_stream ctx p false (h.rest_ended hk)

theorem Ready.advance {p : Cursor} (h : Ready p) (hk : p.kind ≠ .eof) : Ready (p.advance ctx) := by
  obtain ⟨_, _, _, h⟩ := advance_stream ctx h hk
  exact h

theorem advance_suffix {p : Cursor} (h : Ready p) (hk : p.kind ≠ .eof) :
    (p.advance ctx).stream <:+ p.rest := by
  obtain ⟨ds, hd, -, -⟩ := advance_stream ctx h hk
  exact ⟨ds, hd.symm⟩

/-- The stream gets shorter. -/
theorem advance_shrinks {p : Cursor} (h : Ready p) (hk : p.kind ≠ .eof) :
    (p.advance ctx).rest.length < p.rest.length := by
  have := (advance_suffix ctx h hk).length_le
  simpa [stream] using this

/-! ## Moves -/

/-- The places that may be blamed: tokens, the byte of a comma, and the end mark.  The
    end of input itself is blamed only where it starts the text. -/
inductive Place (all : List Token) : Span → Prop
  | token {t} : t ∈ all → t.kind ≠ .eof → Place all t.span
  | shown {t} : t ∈ all → ¬ (t.span.start = t.span.stop ∧ 0 < t.span.start) → Place all t.span
  | comma {t} : t ∈ all → t.kind = .comma → Place all ⟨t.span.start, t.span.start + 1⟩
  | endMark : Place all ctx.endMark

/-- What the parser does at a time, when the tokens of the text are `all`. -/
inductive Move (all : List Token) : Cursor → Cursor → Prop
  | report {p problem span} : Place ctx all span → Move all p (p.report problem span)
  | advance {p} : p.kind ≠ .eof → Move all p (p.advance ctx)
  | fresh {p} : Move all p p.fresh.2

/-- What the parser does after any number of moves. -/
def Moves (all : List Token) : Cursor → Cursor → Prop := Relation.ReflTransGen (Move ctx all)

section
variable {ctx} {all : List Token} {p q r : Cursor}

theorem Moves.refl : Moves ctx all p p := Relation.ReflTransGen.refl

theorem Moves.trans (h : Moves ctx all p q) (h' : Moves ctx all q r) : Moves ctx all p r :=
  Relation.ReflTransGen.trans h h'

theorem Move.moves (h : Move ctx all p q) : Moves ctx all p q := Relation.ReflTransGen.single h

theorem Move.suffix (h : Move ctx all p q) (hp : Ready p) : q.stream <:+ p.stream ∧ Ready q := by
  cases h with
  | report _ => exact ⟨by simp, hp.of_stream (by simp)⟩
  | advance hk =>
    exact ⟨(advance_suffix ctx hp hk).trans (List.suffix_cons _ _), hp.advance ctx hk⟩
  | fresh => exact ⟨List.suffix_refl _, hp.of_stream rfl⟩

/-- **Only tokens of the stream are ever read, in their order.** -/
theorem Moves.suffix (h : Moves ctx all p q) (hp : Ready p) : q.stream <:+ p.stream ∧ Ready q := by
  induction h with
  | refl => exact ⟨List.suffix_refl _, hp⟩
  | tail _ hm ih =>
    obtain ⟨hs, hr⟩ := hm.suffix ih.2
    exact ⟨hs.trans ih.1, hr⟩

theorem Moves.ready (h : Moves ctx all p q) (hp : Ready p) : Ready q := (h.suffix hp).2

theorem Moves.length_le (h : Moves ctx all p q) (hp : Ready p) : q.rest.length ≤ p.rest.length := by
  have := (h.suffix hp).1.length_le
  simpa [stream] using this

theorem Moves.subset (h : Moves ctx all p q) (hp : Ready p) (ha : p.stream ⊆ all) :
    q.stream ⊆ all := fun _ ht => ha ((h.suffix hp).1.subset ht)

/-- Moves one after the other; the later ones start from a stream that is still
    ready and part of the text. -/
theorem Moves.next (h : Moves ctx all p q) (hp : Ready p) (ha : p.stream ⊆ all)
    (h' : Ready q → q.stream ⊆ all → Moves ctx all q r) : Moves ctx all p r :=
  h.trans (h' (h.ready hp) (h.subset hp ha))

theorem moves_blame (ha : p.stream ⊆ all) (problem : Problem) :
    Moves ctx all p (p.blame ctx problem) := by
  refine (Move.report ?_).moves
  split_ifs with h
  · exact .endMark
  · exact .shown (ha (List.mem_cons_self ..)) h

theorem moves_advance (hk : p.kind ≠ .eof) : Moves ctx all p (p.advance ctx) :=
  (Move.advance hk).moves

/-! ## Recovering -/

theorem moves_skipLoop (stops : List TokenKind) (fuel : Nat) (p : Cursor) :
    Moves ctx all p (p.skipLoop ctx stops fuel) := by
  induction fuel generalizing p with
  | zero => exact .refl
  | succ fuel ih =>
    rw [skipLoop]
    split
    · exact .refl
    · next h => exact (moves_advance fun hk => h (Or.inl hk)).trans (ih _)

theorem moves_recover (ha : p.stream ⊆ all) (problem : Problem) (stops : List TokenKind) :
    Moves ctx all p (p.recover ctx problem stops) :=
  (moves_blame ha problem).trans (moves_skipLoop stops _ _)

variable (ctx) in
/-- Recovering takes at least one token, unless it may stop at once. -/
theorem recover_shrinks (hp : Ready p) (problem : Problem) (stops : List TokenKind)
    (hk : p.kind ≠ .eof) (hs : p.kind ∉ stops) :
    (p.recover ctx problem stops).rest.length < p.rest.length := by
  have hb : Ready (p.blame ctx problem) := hp.of_stream (by simp)
  have hkb : (p.blame ctx problem).kind ≠ .eof := by simpa using hk
  have h1 := advance_shrinks ctx hb hkb
  have hm : Moves ctx [] _ _ :=
    moves_skipLoop stops (p.blame ctx problem).rest.length ((p.blame ctx problem).advance ctx)
  have h2 := hm.length_le (hb.advance ctx hkb)
  rw [recover, skipLoop, if_neg (by simp [hk, hs])]
  simp only [blame_rest] at h1 h2 ⊢
  omega

end

end AnnotatedJson.Cursor
