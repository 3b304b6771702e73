/-
  What the parser records.

  * `Moves.grows`: errors are only added;
  * `report_errors_ne_nil`: at a cursor that is `Coherent`, a report leaves an
    error behind, whether it is new or dropped for the one before it;
  * `draw_clean`, `Took`: moving on records nothing iff the tokens that are
    taken are `Quiet`, that is, faultless and allowed.
-/
import Mathlib
import AnnotatedJson.Proofs.Cursor

namespace AnnotatedJson.Cursor

variable (ctx : ParseContext)

/-- A last problem comes with an error. -/
def Coherent (p : Cursor) : Prop := p.errors = [] → p.lastProblem = none

/-- A token that gives no reason for a problem when it is drawn. -/
def Quiet (t : Token) : Prop :=
  t.fault = none ∧ (t.kind.isComment = true → ctx.allowComments = true)

/-! ## Errors are only added -/

theorem report_grows (p : Cursor) (problem : Problem) (span : Span) :
    p.errors <+: (p.report problem span).errors := by
  rcases p.report_errors problem span with h | h <;> rw [h]
  exact List.prefix_append _ _

theorem noteFault_grows (p : Cursor) (t : Token) : p.errors <+: (p.noteFault t).errors := by
  unfold noteFault
  split
  · exact report_grows ..
  · exact List.prefix_refl _

theorem noteComment_grows (p : Cursor) (t : Token) :
    p.errors <+: (p.noteComment ctx t).errors := by
  unfold noteComment
  dsimp only
  split
  · exact List.prefix_refl _
  · exact report_grows ..

theorem draw_grows (p : Cursor) (broken : Bool) (ts : List Token) :
    p.errors <+: (p.draw ctx broken ts).errors := by
  induction ts generalizing p broken with
  | nil => exact List.prefix_refl _
  | cons t ts ih =>
    have h1 := noteFault_grows { p with drawn := p.drawn + 1 } t
    rw [draw]
    split
    · exact h1.trans ((noteComment_grows ctx _ t).trans (ih _ _))
    · exact h1

section
variable {ctx} {all : List Token} {p q : Cursor}

/-- **Errors are only added.** -/
theorem Moves.grows (h : Moves ctx all p q) : p.errors <+: q.errors := by
  induction h with
  | refl => exact List.prefix_refl _
  | tail _ hm ih =>
    refine ih.trans ?_
    cases hm with
    | report _ => exact report_grows ..
    | advance _ => exact draw_grows ..
    | fresh => exact List.prefix_refl _

/-- A reading that ends without errors had none before. -/
theorem Moves.errors_eq_nil (h : Moves ctx all p q) (hq : q.errors = []) : p.errors = [] :=
  List.prefix_nil.1 (hq ▸ h.grows)

/-! ## Reports leave an error behind -/

theorem report_errors_ne_nil (h : Coherent p) (problem : Problem) (span : Span) :
    (p.report problem span).errors ≠ [] := by
  unfold report
  split
  · next hl =>
    intro he
    rw [h he] at hl
    cases hl
  · simp

theorem blame_errors_ne_nil (h : Coherent p) (problem : Problem) :
    (p.blame ctx problem).errors ≠ [] := report_errors_ne_nil h _ _

theorem report_coherent (h : Coherent p) (problem : Problem) (span : Span) :
    Coherent (p.report problem span) :=
  fun he => absurd he (report_errors_ne_nil h problem span)

theorem noteFault_coherent (h : Coherent p) (t : Token) : Coherent (p.noteFault t) := by
  unfold noteFault
  split
  · exact report_coherent h _ _
  · exact h

theorem noteComment_coherent (h : Coherent p) (t : Token) : Coherent (p.noteComment ctx t) := by
  unfold noteComment
  dsimp only
  split
  · exact h
  · exact report_coherent h _ _

theorem draw_coherent (h : Coherent p) (broken : Bool) (ts : List Token) :
    Coherent (p.draw ctx broken ts) := by
  induction ts generalizing p broken with
  | nil => exact h
  | cons t ts ih =>
    have h0 : Coherent { p with drawn := p.drawn + 1 } := h
    have h1 := noteFault_coherent h0 t
    rw [draw]
    split
    · exact ih (noteComment_coherent h1 t) _
    · exact h1

theorem Moves.coherent (h : Moves ctx all p q) (hp : Coherent p) : Coherent q := by
  induction h with
  | refl => exact hp
  | tail _ hm ih =>
    cases hm with
    | report _ => exact report_coherent ih _ _
    | advance _ => exact draw_coherent ih _ _
    | fresh => exact ih

/-! ## Quiet tokens -/

theorem noteFault_clean (hp : Coherent p) (t : Token) :
    (p.noteFault t).errors = [] ↔ p.errors = [] ∧ t.fault = none := by
  unfold noteFault
  split
  · next f hf => simp [hf, report_errors_ne_nil hp]
  · next hf => simp [hf]

theorem noteComment_clean (hp : Coherent p) (t : Token) :
    (p.noteComment ctx t).errors = [] ↔ p.errors = [] ∧ ctx.allowComments = true := by
  unfold noteComment
  dsimp only
  split
  · next h => simp [h]
  · next h => simp [h, report_errors_ne_nil hp]

variable (ctx) in
/-- **Drawing records nothing iff the tokens that are drawn are quiet.** -/
theorem draw_clean (hp : Coherent p) (broken : Bool) {ds : List Token} {t : Token} (ts : List Token)
    (hd : ∀ d ∈ ds, d.kind.isComment = true) (ht : t.kind.isComment = false) :
    (p.draw ctx broken (ds ++ t :: ts)).errors = [] ↔
      p.errors = [] ∧ ∀ x ∈ ds ++ [t], Quiet ctx x := by
  induction ds generalizing p broken with
  | nil =>
    have h0 : Coherent { p with drawn := p.drawn + 1 } := hp
    rw [List.nil_append, draw, if_neg (by simp [ht])]
    simp [noteFault_clean h0, Quiet, ht]
  | cons d ds ih =>
    have h0 : Coherent { p with drawn := p.drawn + 1 } := hp
    have h1 := noteFault_coherent h0 d
    have hdc : d.kind.isComment = true := hd d (List.mem_cons_self ..)
    rw [List.cons_append, draw, if_pos hdc, ih (noteComment_coherent h1 d) _
      fun x hx => hd x (List.mem_cons_of_mem _ hx), noteComment_clean h1, noteFault_clean h0]
    simp only [List.cons_append, List.forall_mem_cons, Quiet, hdc, true_imp_iff]
    tauto

end

/-! ## What is taken -/

/-- The tokens that are no comments. -/
def visible (ts : List Token) : List Token := ts.filter fun t => !t.kind.isComment

@[simp] theorem visible_nil : visible [] = [] := rfl

@[simp] theorem visible_append (ts us : List Token) : visible (ts ++ us) = visible ts ++ visible us :=
  List.filter_append ts us

theorem visible_cons {t : Token} (h : t.kind.isComment = false) (ts : List Token) :
    visible (t :: ts) = t :: visible ts := by simp [visible, h]

theorem visible_comments {ds : List Token} (h : ∀ d ∈ ds, d.kind.isComment = true) :
    visible ds = [] := by
  simpa [visible] using h

section
variable {ctx} {p q r : Cursor}

theorem Ready.visible_stream (h : Ready p) : visible p.stream = p.current :: visible p.rest :=
  visible_cons h.plain _

variable (ctx) in
/-- Between two cursors the tokens `ts` are taken, and with the comments among them
    they are quiet. -/
structure Took (p q : Cursor) (ts : List Token) : Prop where
  visible_eq : visible p.stream = ts ++ visible q.stream
  quiet : ∀ t ∈ p.rest, t ∈ q.rest ∨ Quiet ctx t

theorem Took.refl (p : Cursor) : Took ctx p p [] := ⟨rfl, fun _ h => Or.inl h⟩

theorem Took.trans {ts us : List Token} (h : Took ctx p q ts) (h' : Took ctx q r us) :
    Took ctx p r (ts ++ us) := by
  refine ⟨by rw [h.visible_eq, h'.visible_eq, List.append_assoc], fun t ht => ?_⟩
  rcases h.quiet t ht with ht | ht
  · exact h'.quiet t ht
  · exact Or.inr ht

/-- Moving on without a problem takes the current token. -/
theorem took_advance (hp : Ready p) (hc : Coherent p) (hk : p.kind ≠ .eof)
    (h : (p.advance ctx).errors = []) : Took ctx p (p.advance ctx) [p.current] := by
  obtain ⟨ds, hd, hcom, hr⟩ := advance_stream ctx hp hk
  have hd' : p.rest = ds ++ (p.advance ctx).current :: (p.advance ctx).rest := hd
  have h' : (p.draw ctx false (ds ++ (p.advance ctx).current :: (p.advance ctx).rest)).errors = [] :=
    hd' ▸ h
  have hq := ((draw_clean ctx hc false _ hcom hr.plain).1 h').2
  constructor
  · rw [hp.visible_stream, hd, visible_append, visible_comments hcom]
    rfl
  · intro t ht
    rw [hd', List.mem_append, List.mem_cons] at ht
    simp only [List.mem_append, List.mem_singleton] at hq
    rcases ht with ht | rfl | ht
    · exact Or.inr (hq t (Or.inl ht))
    · exact Or.inr (hq _ (Or.inr rfl))
    · exact Or.inl ht

end

end AnnotatedJson.Cursor
