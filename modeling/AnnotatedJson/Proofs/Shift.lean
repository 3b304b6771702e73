/-
  Reading does not depend on where the tokens stand.

  * `Token.shift`, `Node.shift`, `Cursor.shift`, `Literal.shift` move everything some
    bytes to the right;
  * the parts of the parser commute with it, one lemma for each;
  * `Reads.shift`: a reading moved to the right is a reading.

  Only the end of input is shown elsewhere when it starts the text; `Cursor.Solid` says
  that it does not.
-/
import Mathlib
import AnnotatedJson.Proofs.Reading

namespace AnnotatedJson

/-! ## Moving to the right -/

/-- A token moved to the right. -/
def Token.shift (s : Nat) (t : Token) : Token := { t with span := t.span.shift s }

/-- A mark moved to the right. -/
def Mark.shift (s : Nat) (m : Mark) : Mark := { m with offset := m.offset + s }

namespace Node

mutual

/-- A node moved to the right, with all nodes under it. -/
def shift (s : Nat) : Node → Node
  | atom m value => atom (m.shift s) value
  | array m items => array (m.shift s) (shiftAll s items)
  | object m properties => object (m.shift s) (shiftAll s properties)
  | property m colon key value => property (m.shift s) (colon.map (· + s)) (shift s key) (shift s value)
  | hole m colon key => hole (m.shift s) (colon.map (· + s)) (shift s key)

/-- Nodes moved to the right. -/
def shiftAll (s : Nat) : List Node → List Node
  | [] => []
  | n :: ns => shift s n :: shiftAll s ns

end

theorem mark_shift (s : Nat) (n : Node) : (n.shift s).mark = n.mark.shift s := by
  cases n <;> simp [shift, mark]

theorem stop_shift (s : Nat) (n : Node) : (n.shift s).stop = n.stop + s := by
  simp only [stop, mark_shift, Mark.stop, Mark.shift]
  omega

end Node

/-- A syntax error moved to the right. -/
def SyntaxError.shift (s : Nat) (e : SyntaxError) : SyntaxError := { e with span := e.span.shift s }

/-- A literal moved to the right: every node, colon, error and comment. -/
def Literal.shift (s : Nat) (d : Literal) : Literal :=
  ⟨d.root.map (Node.shift s), d.count, d.errors.map (SyntaxError.shift s),
    d.comments.map (Span.shift s)⟩

/-- The end mark moved to the right. -/
def ParseContext.shift (s : Nat) (ctx : ParseContext) : ParseContext :=
  { ctx with endMark := ctx.endMark.shift s }

theorem Token.Ended.shift {ts : List Token} (h : Ended ts) (s : Nat) :
    Ended (ts.map (Token.shift s)) := by
  induction h with
  | last ht => exact .last ht
  | cons ht _ ih => exact .cons ht ih

namespace Cursor

/-- A cursor moved to the right, with all it has to read and has recorded. -/
def shift (s : Nat) (p : Cursor) : Cursor where
  current := p.current.shift s
  rest := p.rest.map (Token.shift s)
  afterBreak := p.afterBreak
  nextId := p.nextId
  errors := p.errors.map (SyntaxError.shift s)
  comments := p.comments.map (Span.shift s)
  lastProblem := p.lastProblem.map (· + s)
  drawn := p.drawn

variable (s : Nat) (ctx : ParseContext) (p : Cursor)

@[simp] theorem shift_kind : (p.shift s).kind = p.kind := rfl

@[simp] theorem shift_start : (p.shift s).start = p.start + s := rfl

@[simp] theorem shift_stop : (p.shift s).stop = p.stop + s := rfl

@[simp] theorem shift_nextId : (p.shift s).nextId = p.nextId := rfl

@[simp] theorem shift_afterBreak : (p.shift s).afterBreak = p.afterBreak := rfl

@[simp] theorem shift_fresh : (p.shift s).fresh.2 = p.fresh.2.shift s := rfl

variable {p} in
theorem Ready.shift (h : Ready p) : Ready (p.shift s) := ⟨h.ended.shift s, h.plain⟩

/-! ## Recording -/

theorem report_shift (problem : Problem) (span : Span) :
    (p.shift s).report problem (span.shift s) = (p.report problem span).shift s := by
  have hiff : (p.shift s).lastProblem = some (span.shift s).start ↔
      p.lastProblem = some span.start := by
    simp [shift, Span.shift]
  unfold report
  by_cases h : p.lastProblem = some span.start
  · rw [if_pos h, if_pos (hiff.2 h)]
  · rw [if_neg h, if_neg (mt hiff.1 h)]
    simp [shift, SyntaxError.shift, Span.shift]

theorem noteFault_shift (t : Token) :
    (p.shift s).noteFault (t.shift s) = (p.noteFault t).shift s := by
  unfold noteFault
  cases h : t.fault with
  | none => simp [Token.shift, h]
  | some f => simpa [Token.shift, h] using report_shift s p (.fault f) t.span

theorem noteComment_shift (t : Token) :
    (p.shift s).noteComment (ctx.shift s) (t.shift s) = (p.noteComment ctx t).shift s := by
  unfold noteComment
  by_cases h : ctx.allowComments = true
  · have h' : (ctx.shift s).allowComments = true := h
    simp [h, h', shift, Token.shift]
  · have h' : ¬ (ctx.shift s).allowComments = true := h
    have hr : (p.shift s).report .comment (t.shift s).span = (p.report .comment t.span).shift s :=
      report_shift s p .comment t.span
    simp only [if_neg h, if_neg h', hr]
    simp [shift, Token.shift]

theorem draw_shift (broken : Bool) (ts : List Token) :
    (p.shift s).draw (ctx.shift s) broken (ts.map (Token.shift s)) =
      (p.draw ctx broken ts).shift s := by
  induction ts generalizing p broken with
  | nil => rfl
  | cons t ts ih =>
    have h : noteFault { p.shift s with drawn := (p.shift s).drawn + 1 } (t.shift s) =
        (noteFault { p with drawn := p.drawn + 1 } t).shift s :=
      noteFault_shift s { p with drawn := p.drawn + 1 } t
    rw [List.map_cons, draw, draw, h]
    by_cases hc : t.kind.isComment = true
    · have hc' : (t.shift s).kind.isComment = true := hc
      rw [if_pos hc, if_pos hc', ← ih, noteComment_shift]
      rfl
    · have hc' : ¬ (t.shift s).kind.isComment = true := hc
      rw [if_neg hc, if_neg hc']
      rfl

@[simp] theorem advance_shift : (p.shift s).advance (ctx.shift s) = (p.advance ctx).shift s :=
  draw_shift s ctx p false p.rest

/-- No token without an extent starts the text. -/
def Solid (p : Cursor) : Prop := ∀ t ∈ p.stream, t.span.start = t.span.stop → 0 < t.span.start

section
variable {s ctx p}

theorem Moves.solid {all : List Token} {q : Cursor} (h : Moves ctx all p q) (hp : Ready p)
    (hs : Solid p) : Solid q := fun t ht => hs t ((h.suffix hp).1.subset ht)

variable (s ctx) in
theorem blame_shift (hs : Solid p) (problem : Problem) :
    (p.shift s).blame (ctx.shift s) problem = (p.blame ctx problem).shift s := by
  have hc := hs p.current (List.mem_cons_self ..)
  have hspan : (if (p.shift s).current.span.start = (p.shift s).current.span.stop ∧
        0 < (p.shift s).current.span.start then (ctx.shift s).endMark else (p.shift s).current.span) =
      (if p.current.span.start = p.current.span.stop ∧ 0 < p.current.span.start then ctx.endMark
        else p.current.span).shift s := by
    have hiff : ((p.shift s).current.span.start = (p.shift s).current.span.stop ∧
        0 < (p.shift s).current.span.start) ↔
        (p.current.span.start = p.current.span.stop ∧ 0 < p.current.span.start) := by
      simp only [shift, Token.shift, Span.shift]
      omega
    by_cases h : p.current.span.start = p.current.span.stop ∧ 0 < p.current.span.start
    · rw [if_pos h, if_pos (hiff.2 h)]
      rfl
    · rw [if_neg h, if_neg (mt hiff.1 h)]
      rfl
  unfold blame
  dsimp only
  rw [hspan, report_shift]

end

/-! ## The parts of the rules -/

theorem skipLoop_shift (stops : List TokenKind) (fuel : Nat) :
    (p.shift s).skipLoop (ctx.shift s) stops fuel = (p.skipLoop ctx stops fuel).shift s := by
  induction fuel generalizing p with
  | zero => rfl
  | succ fuel ih =>
    rw [skipLoop, skipLoop, shift_kind]
    split
    · rfl
    · rw [advance_shift, ih]

theorem noteTrailing_shift (b : Bool) (comma : Nat) :
    (p.shift s).noteTrailing b (comma + s) = (p.noteTrailing b comma).shift s := by
  unfold noteTrailing
  cases b with
  | false => rfl
  | true =>
    rw [if_pos rfl, if_pos rfl, Nat.add_right_comm comma s 1]
    exact report_shift s p .trailingComma ⟨comma, comma + 1⟩

theorem keyNode_shift (key : Text) : (p.shift s).keyNode key = (p.keyNode key).shift s := by
  simp [keyNode, Node.shift, Mark.shift, Nat.add_sub_add_right]

theorem passKey_shift (rep : Bool) :
    (p.shift s).passKey (ctx.shift s) rep = (p.passKey ctx rep).shift s := by
  unfold passKey
  simp only [shift_fresh, advance_shift]
  cases rep with
  | false => rfl
  | true => exact report_shift s _ .duplicateKey ⟨p.start, p.stop⟩

theorem colon?_shift : (p.shift s).colon? = p.colon?.map (· + s) := by
  unfold colon?
  rw [shift_kind]
  split <;> rfl

theorem holeStop_shift (keyStop : Nat) :
    (p.shift s).holeStop (keyStop + s) = p.holeStop keyStop + s := by
  unfold holeStop
  rw [colon?_shift]
  cases p.colon? with
  | none => rfl
  | some c => exact Nat.add_right_comm c s 1

theorem takeAtom_shift (a : Atom) : (p.shift s).takeAtom (ctx.shift s) a =
    ((p.takeAtom ctx a).1.shift s, (p.takeAtom ctx a).2.shift s) := by
  have h := advance_shift s ctx p.fresh.2
  simp only [takeAtom, shift_fresh, h]
  simp [fresh, Node.shift, Mark.shift, start, stop, shift, Token.shift, Span.shift,
    Nat.add_sub_add_right]

section
variable {s ctx p} (hs : Solid p)

include hs

theorem recover_shift (problem : Problem) (stops : List TokenKind) :
    (p.shift s).recover (ctx.shift s) problem stops = (p.recover ctx problem stops).shift s := by
  unfold recover
  simp only [blame_shift s ctx hs, skipLoop_shift]
  simp [shift]

theorem separate_shift (b : Bool) (problem : Problem) :
    (p.shift s).separate (ctx.shift s) b problem = (p.separate ctx b problem).shift s := by
  unfold separate
  rw [shift_kind]
  cases b <;> split_ifs <;> first | rfl | simp only [blame_shift s ctx hs, advance_shift]

theorem continues_shift (b : Bool) (problem : Problem) (closer : TokenKind) :
    (p.shift s).Continues (ctx.shift s) b problem closer ↔ p.Continues ctx b problem closer := by
  unfold Continues
  rw [separate_shift hs, shift_kind, shift_kind]

theorem passColon_shift : (p.shift s).passColon (ctx.shift s) = (p.passColon ctx).shift s := by
  unfold passColon
  rw [shift_kind]
  split
  · rw [advance_shift]
  · rw [blame_shift s ctx hs]

theorem passNoValue_shift : (p.shift s).passNoValue (ctx.shift s) = (p.passNoValue ctx).shift s := by
  unfold passNoValue
  rw [shift_kind]
  split
  · rfl
  · rw [recover_shift hs]

theorem close_shift (id start : Nat) (closer : TokenKind) (problem : Problem) :
    (p.shift s).close (ctx.shift s) id (start + s) closer problem =
      ((p.close ctx id start closer problem).1.shift s,
        (p.close ctx id start closer problem).2.shift s) := by
  unfold close
  rw [shift_kind, blame_shift s ctx hs]
  split
  · rw [advance_shift, shift_stop, Nat.add_sub_add_right]
    rfl
  · dsimp only
    rw [shift_start, Nat.add_sub_add_right]
    rfl

theorem atom?_shift {a : Atom} {q : Cursor} (h : p.atom? ctx = some (a, q)) :
    (p.shift s).atom? (ctx.shift s) = some (a, q.shift s) := by
  unfold atom? at h ⊢
  rw [shift_kind]
  have hv : (p.shift s).current.value = p.current.value := rfl
  rw [hv, blame_shift s ctx hs]
  split at h
  case h_2 => split at h <;> cases h <;> simp_all
  all_goals cases h <;> rfl

theorem key?_shift : (p.shift s).key? (ctx.shift s) =
    (p.key? ctx).map fun r => (r.1, r.2.shift s) := by
  have hv : (p.shift s).current.value = p.current.value := rfl
  unfold key?
  rw [shift_kind, hv, blame_shift s ctx hs]
  split_ifs <;> rfl

end

/-! ## Readings -/

variable {s ctx p} {q : Cursor}

/-- Ready and solid, as the cursor stays once it is. -/
structure Firm (p : Cursor) : Prop extends Ready p where
  solid : Solid p

theorem Moves.firm {all : List Token} (h : Moves ctx all p q) (hp : Firm p) : Firm q :=
  ⟨h.ready hp.toReady, h.solid hp.toReady hp.solid⟩

theorem Reads.firm {task : Task} {out : List Node} (h : Reads ctx task p out q) (hp : Firm p) :
    Firm q := (h.goes hp.toReady).firm hp

/-- **A reading moved to the right is a reading.** -/
theorem Reads.shift {task : Task} {out : List Node} (h : Reads ctx task p out q) (hp : Firm p) :
    Reads (ctx.shift s) task (p.shift s) (Node.shiftAll s out) (q.shift s) := by
  induction h with
  | @object p ns q hk h ih =>
    have ho := (goes_open ctx p (by rw [hk]; simp)).firm hp
    have hr := ih ho
    rw [← advance_shift, ← shift_fresh] at hr
    have hr' := Reads.object (p := p.shift s) hk hr
    rw [shift_nextId, shift_start, close_shift (h.firm ho).solid] at hr'
    exact hr'
  | @array p ns q hk h ih =>
    have ho := (goes_open ctx p (by rw [hk]; simp)).firm hp
    have hr := ih ho
    rw [← advance_shift, ← shift_fresh] at hr
    have hr' := Reads.array (p := p.shift s) hk hr
    rw [shift_nextId, shift_start, close_shift (h.firm ho).solid] at hr'
    exact hr'
  | @atom p a q h =>
    have hr := Reads.atom (atom?_shift (s := s) hp.solid h)
    rw [takeAtom_shift] at hr
    exact hr
  | noValue h => exact .noValue h
  | itemsEnd h => exact .itemsEnd h
  | @itemsTrailing b p hk hc =>
    have hr : Reads (ctx.shift s) (.items b) (p.shift s) _ _ :=
      .itemsTrailing hk (by rw [separate_shift hp.solid]; exact hc)
    rw [separate_shift hp.solid, shift_start, noteTrailing_shift] at hr
    exact hr
  | @item b p n q ns r hc h₁ h₂ ih₁ ih₂ =>
    have hs := (goes_separate ctx p b .valueExpected).firm hp
    have hr := ih₁ hs
    rw [← separate_shift hp.solid] at hr
    exact .item ((continues_shift hp.solid _ _ _).2 hc) hr (ih₂ (h₁.firm hs))
  | @noItem b p ns r hc hn h ih =>
    have hs := (goes_separate ctx p b .valueExpected).firm hp
    have hr := ih ((goes_recover ctx _ _ _).firm hs)
    rw [← recover_shift hs.solid, ← separate_shift hp.solid] at hr
    refine .noItem ((continues_shift hp.solid _ _ _).2 hc) ?_ hr
    rw [separate_shift hp.solid]
    exact hn
  | membersEnd h => exact .membersEnd h
  | @membersTrailing seen b p hk hc =>
    have hr : Reads (ctx.shift s) (.members seen b) (p.shift s) _ _ :=
      .membersTrailing hk (by rw [separate_shift hp.solid]; exact hc)
    rw [separate_shift hp.solid, shift_start, noteTrailing_shift] at hr
    exact hr
  | @leftover seen p ns r h₁ h₂ h₃ h₄ h ih =>
    have hr := ih ((goes_recover ctx _ _ _).firm hp)
    rw [← recover_shift hp.solid] at hr
    exact .leftover h₁ h₂ h₃ h₄ hr
  | @member seen b p key p' n q ns r hc hor hkey h₁ h₂ ih₁ ih₂ =>
    have hs := (goes_separate ctx p b .propertyExpected).firm hp
    have hs' := (goes_key? hkey).firm hs
    refine .member ((continues_shift hp.solid _ _ _).2 hc) hor ?_ (ih₁ hs') (ih₂ (h₁.firm hs'))
    rw [separate_shift hp.solid, key?_shift hs.solid, hkey]
    rfl
  | @noMember seen b p ns r hc hor hkey h ih =>
    have hs := (goes_separate ctx p b .propertyExpected).firm hp
    have hr := ih ((goes_recover ctx _ _ _).firm hs)
    rw [← recover_shift hs.solid, ← separate_shift hp.solid] at hr
    refine .noMember ((continues_shift hp.solid _ _ _).2 hc) hor ?_ hr
    rw [separate_shift hp.solid, key?_shift hs.solid, hkey]
    rfl
  | @nextLine key rep p hk hn =>
    have hs := (goes_passKey ctx p hk rep).firm hp
    have hr : Reads (ctx.shift s) (.property key rep) (p.shift s) _ _ :=
      .nextLine hk (by rw [passKey_shift]; exact hn)
    rw [passKey_shift, passColon_shift hs.solid, keyNode_shift, shift_start, shift_stop,
      Nat.add_sub_add_right] at hr
    exact hr
  | @valued key rep p v q hk hn h ih =>
    have hs := (goes_passKey ctx p hk rep).firm hp
    have hv := ih ((goes_passColon ctx _).firm hs)
    rw [← passColon_shift hs.solid, ← passKey_shift] at hv
    have hr : Reads (ctx.shift s) (.property key rep) (p.shift s) _ _ :=
      .valued hk (by rw [passKey_shift]; exact hn) hv
    rw [passKey_shift, colon?_shift, keyNode_shift, shift_start, Node.stop_shift,
      Nat.add_sub_add_right] at hr
    exact hr
  | @valueless key rep p hk hn hv =>
    have hs := (goes_passKey ctx p hk rep).firm hp
    have hs' := (goes_passColon ctx _).firm hs
    have hr : Reads (ctx.shift s) (.property key rep) (p.shift s) _ _ :=
      .valueless hk (by rw [passKey_shift]; exact hn)
        (by rw [passKey_shift, passColon_shift hs.solid]; exact hv)
    rw [passKey_shift, colon?_shift, keyNode_shift, shift_start, shift_stop, holeStop_shift,
      Nat.add_sub_add_right, passColon_shift hs.solid, passNoValue_shift hs'.solid] at hr
    exact hr

end Cursor

end AnnotatedJson
