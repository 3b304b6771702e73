/-
  Reading tokens that are known.

  * `Cursor.Fair`: the tokens to come are known and calm, and only problems that are
    allowed have been recorded;
  * `Fair.advance`, `Fair.blame`, `Fair.recover`, `Fair.passKey`: what the parser does keeps
    the cursor fair;
  * `Before.item`, `Before.property`: an element is read where one may come, and then the
    elements after it;
  * `Literal.opening_fair`, `Literal.parse_of_fair`: how a parse starts and ends.
-/
import Mathlib
import AnnotatedJson.Proofs.Reading
import AnnotatedJson.Proofs.Record

namespace AnnotatedJson.Cursor

variable {ctx : ParseContext} {all : List Token} {Allowed : Problem → Prop} {p q : Cursor}

/-! ## Drawing calm tokens -/

variable (ctx Allowed) in
/-- A token at which only allowed problems are recorded when it is drawn. -/
def Calm (t : Token) : Prop :=
  (∀ fault, t.fault = some fault → Allowed (.fault fault)) ∧
    (t.kind.isComment = true → ctx.allowComments = true ∨ Allowed .comment)

theorem Quiet.calm {t : Token} (h : Quiet ctx t) : Calm ctx Allowed t := by
  refine ⟨fun fault hf => ?_, fun hc => Or.inl (h.2 hc)⟩
  rw [h.1] at hf
  cases hf

theorem report_allowed {problem : Problem} (hp : ∀ e ∈ p.errors, Allowed e.problem)
    (h : Allowed problem) (span : Span) : ∀ e ∈ (p.report problem span).errors, Allowed e.problem := by
  intro e he
  rcases p.report_errors problem span with hr | hr <;> rw [hr] at he
  · exact hp e he
  · rcases List.mem_append.1 he with he | he
    · exact hp e he
    · rw [List.mem_singleton.1 he]
      exact h

theorem noteFault_allowed {t : Token} (h : Calm ctx Allowed t)
    (hp : ∀ e ∈ p.errors, Allowed e.problem) : ∀ e ∈ (p.noteFault t).errors, Allowed e.problem := by
  unfold noteFault
  split
  · next fault hf => exact report_allowed hp (h.1 fault hf) _
  · exact hp

theorem noteComment_allowed {t : Token} (h : Calm ctx Allowed t) (hc : t.kind.isComment = true)
    (hp : ∀ e ∈ p.errors, Allowed e.problem) :
    ∀ e ∈ (p.noteComment ctx t).errors, Allowed e.problem := by
  unfold noteComment
  by_cases ha : ctx.allowComments = true
  · simpa [ha] using hp
  · simpa [ha] using report_allowed hp ((h.2 hc).resolve_left ha) _

/-- Drawing calm tokens records only allowed problems. -/
theorem draw_allowed {ts : List Token} (h : ∀ t ∈ ts, Calm ctx Allowed t) (broken : Bool)
    (hp : ∀ e ∈ p.errors, Allowed e.problem) :
    ∀ e ∈ (p.draw ctx broken ts).errors, Allowed e.problem := by
  induction ts generalizing p broken with
  | nil => exact hp
  | cons t ts ih =>
    have ht := h t (List.mem_cons_self ..)
    have hp' : ∀ e ∈ ({ p with drawn := p.drawn + 1 } : Cursor).errors, Allowed e.problem := hp
    rw [draw]
    split
    · next hc =>
      exact ih (fun u hu => h u (List.mem_cons_of_mem _ hu)) _
        (noteComment_allowed ht hc (noteFault_allowed ht hp'))
    · exact noteFault_allowed ht hp'

/-! ## Fair cursors -/

variable (ctx all Allowed) in
/-- A cursor in the calm tokens `all`: without the comments, those to come are `ts`, and
    the problems recorded so far are allowed. -/
structure Fair (p : Cursor) (ts : List Token) : Prop extends Ready p where
  calm : ∀ t ∈ all, Calm ctx Allowed t
  suffix : p.stream <:+ all
  visible_eq : visible p.stream = ts
  errors : ∀ e ∈ p.errors, Allowed e.problem

section
variable {t z : Token} {ts : List Token}

theorem Fair.current (h : Fair ctx all Allowed p (t :: ts)) : p.current = t := by
  have hv := h.visible_eq
  rw [h.toReady.visible_stream] at hv
  exact (List.cons.inj hv).1

theorem Fair.visible_rest (h : Fair ctx all Allowed p (t :: ts)) : visible p.rest = ts := by
  have hv := h.visible_eq
  rw [h.toReady.visible_stream] at hv
  exact (List.cons.inj hv).2

theorem Fair.kind (h : Fair ctx all Allowed p (t :: ts)) : p.kind = t.kind :=
  congrArg Token.kind h.current

theorem Fair.start (h : Fair ctx all Allowed p (t :: ts)) : p.start = t.span.start := by
  rw [Cursor.start, h.current]

theorem Fair.stop (h : Fair ctx all Allowed p (t :: ts)) : p.stop = t.span.stop := by
  rw [Cursor.stop, h.current]

theorem Fair.mem (h : Fair ctx all Allowed p (t :: ts)) : t ∈ all :=
  h.current ▸ h.suffix.subset (List.mem_cons_self ..)

theorem Fair.fresh (h : Fair ctx all Allowed p ts) : Fair ctx all Allowed p.fresh.2 ts :=
  ⟨h.toReady.of_stream rfl, h.calm, h.suffix, h.visible_eq, h.errors⟩

theorem Fair.report {problem : Problem} (h : Fair ctx all Allowed p ts) (hs : Allowed problem)
    (span : Span) : Fair ctx all Allowed (p.report problem span) ts :=
  ⟨h.toReady.of_stream (by simp), h.calm, by simpa using h.suffix, by simpa using h.visible_eq,
    report_allowed h.errors hs span⟩

theorem Fair.blame {problem : Problem} (h : Fair ctx all Allowed p ts) (hs : Allowed problem) :
    Fair ctx all Allowed (p.blame ctx problem) ts := h.report hs _

/-- Moving on stays fair. -/
theorem Fair.advance (h : Fair ctx all Allowed p (t :: ts)) (hk : t.kind ≠ .eof) :
    Fair ctx all Allowed (p.advance ctx) ts := by
  have hk' : p.kind ≠ .eof := h.kind ▸ hk
  obtain ⟨ds, hd, hcom, hr⟩ := advance_stream ctx h.toReady hk'
  have hrest : ∀ x ∈ p.rest, Calm ctx Allowed x := fun x hx =>
    h.calm x (h.suffix.subset (List.mem_cons_of_mem _ hx))
  refine ⟨hr, h.calm, ?_, ?_, draw_allowed hrest false h.errors⟩
  · exact ((advance_suffix ctx h.toReady hk').trans (List.suffix_cons _ _)).trans h.suffix
  · rw [← h.visible_rest, hd, visible_append, visible_comments hcom]
    rfl

/-- The end of input is last. -/
theorem Fair.ne_eof (h : Fair ctx all Allowed p (t :: ts)) (hts : ts ≠ []) : t.kind ≠ .eof := by
  intro hk
  have hv := h.visible_rest
  rw [h.ended.eq_nil (h.kind.trans hk)] at hv
  exact hts hv.symm

/-- A container is closed where its closing token comes. -/
theorem Fair.close {closer : TokenKind} (h : Fair ctx all Allowed p (z :: ts)) (hz : z.kind = closer)
    (hc : closer ≠ .eof) (id start : Nat) (problem : Problem) :
    Fair ctx all Allowed (p.close ctx id start closer problem).2 ts := by
  rw [Cursor.close, if_pos (h.kind.trans hz)]
  exact h.advance (hz ▸ hc)

/-- Recovering passes one token, if it may stop at the next. -/
theorem Fair.recover {problem : Problem} {stops : List TokenKind}
    (h : Fair ctx all Allowed p (t :: z :: ts)) (hs : Allowed problem) (ht : t.kind ∉ stops)
    (hz : z.kind ∈ stops) : Fair ctx all Allowed (p.recover ctx problem stops) (z :: ts) := by
  have hb := h.blame hs
  have hk : t.kind ≠ .eof := h.ne_eof (by simp)
  have ha := hb.advance hk
  have hlen : p.rest ≠ [] := by
    intro he
    have hv := h.visible_rest
    rw [he] at hv
    cases hv
  obtain ⟨n, hn⟩ := Nat.exists_eq_succ_of_ne_zero (List.length_pos_iff.2 hlen).ne'
  have hskip : p.recover ctx problem stops = (p.blame ctx problem).advance ctx := by
    rw [Cursor.recover, blame_rest, hn, skipLoop, if_neg (by simp [hb.kind, hk, ht]), skipLoop,
      if_pos (Or.inr (by rw [ha.kind]; exact hz))]
  rw [hskip]
  exact ha

/-- After a key, which may be repeated, and a colon the value comes. -/
theorem Fair.passKey {k c : Token} (h : Fair ctx all Allowed p (k :: c :: ts)) (hc : c.kind = .colon)
    (rep : Bool) (hrep : rep = true → Allowed .duplicateKey) :
    (p.passKey ctx rep).kind = .colon ∧ (p.passKey ctx rep).start = c.span.start ∧
      Fair ctx all Allowed ((p.passKey ctx rep).passColon ctx) ts := by
  have h₀ : Fair ctx all Allowed (p.fresh.2.fresh.2.advance ctx) (c :: ts) :=
    h.fresh.fresh.advance (h.ne_eof (by simp))
  have h₁ : Fair ctx all Allowed (p.passKey ctx rep) (c :: ts) := by
    unfold Cursor.passKey
    split
    · next hr => exact h₀.report (hrep hr) _
    · exact h₀
  have hk := h₁.kind.trans hc
  refine ⟨hk, h₁.start, ?_⟩
  rw [passColon, if_pos hk]
  exact h₁.advance (by rw [hc]; simp)

theorem Fair.property {k c : Token} (h : Fair ctx all Allowed p (k :: c :: ts)) (hc : c.kind = .colon) :
    (p.passKey ctx false).kind = .colon ∧ (p.passKey ctx false).start = c.span.start ∧
      Fair ctx all Allowed ((p.passKey ctx false).passColon ctx) ts :=
  h.passKey hc false fun hr => nomatch hr

end

/-! ## Elements -/

variable (ctx) in
/-- Where an element may come, and the cursor at its first token: after an element, a
    comma is passed. -/
inductive Before (p : Cursor) : Bool → Cursor → Prop
  | first : Before p false p
  | next : p.kind = .comma → Before p true (p.advance ctx)

section
variable {b : Bool} {p' r : Cursor} {n : Node} {ns : List Node}

theorem Before.separate (h : Before ctx p b q) (hq : q.kind ≠ .comma) (problem : Problem) :
    p.separate ctx b problem = q := by
  cases h with
  | first => simp [Cursor.separate, hq]
  | next hk => simp [Cursor.separate, hk]

theorem Before.continues (h : Before ctx p b q) (hq : q.kind ≠ .comma) (hq' : q.kind ≠ .eof)
    {closer : TokenKind} (hc : closer ≠ .comma) (hqc : q.kind ≠ closer) (problem : Problem) :
    p.Continues ctx b problem closer := by
  have hsep := h.separate hq problem
  cases h with
  | first => exact ⟨hqc, hq', fun h => hq h.1⟩
  | next hk =>
    refine ⟨by rw [hk]; exact hc.symm, by rw [hk]; simp, fun h => ?_⟩
    rw [hsep] at h
    exact hqc h.2

/-- An item is read, and then the items after it. -/
theorem Before.item (hb : Before ctx p b p') (hs : startsValue p'.kind = true)
    (hv : Reads ctx .value p' [n] q) (hr : Reads ctx (.items true) q ns r) :
    Reads ctx (.items b) p (n :: ns) r := by
  have hne : ∀ k, startsValue k = false → p'.kind ≠ k := by
    intro k hk he
    rw [← he, hs] at hk
    cases hk
  refine .item (hb.continues (hne _ rfl) (hne _ rfl) (by simp) (hne _ rfl) _) ?_ hr
  rw [hb.separate (hne _ rfl)]
  exact hv

/-- A member is read, and then the members after it. -/
theorem Before.property {seen : List Text} {key : Text} {p'' : Cursor} (hb : Before ctx p b p')
    (hkey : p'.key? ctx = some (key, p''))
    (hv : Reads ctx (.property key (seen.contains key)) p'' [n] q)
    (hr : Reads ctx (.members (key :: seen) true) q ns r) :
    Reads ctx (.members seen b) p (n :: ns) r := by
  have hk : p'.kind = .string ∨ p'.kind = .unknown := by
    rcases key?_spec hkey with ⟨hk, -, -⟩ | ⟨hk, -, -⟩
    · exact Or.inl hk
    · exact Or.inr hk
  have hne : ∀ k, k ≠ .string → k ≠ .unknown → p'.kind ≠ k := by
    rintro k h1 h2 rfl
    exact hk.elim h1 h2
  have hor : p.kind = .comma ∨ b = false ∨ p.kind = .string := by
    cases hb with
    | first => exact Or.inr (Or.inl rfl)
    | next hcomma => exact Or.inl hcomma
  refine .member (hb.continues (hne _ (by simp) (by simp)) (hne _ (by simp) (by simp)) (by simp)
    (hne _ (by simp) (by simp)) _) hor ?_ hv hr
  rw [hb.separate (hne _ (by simp) (by simp))]
  exact hkey

/-- A member with a new key is read, and then the members after it. -/
theorem Before.member {seen : List Text} {key : Text} {p'' : Cursor} (hb : Before ctx p b p')
    (hkey : p'.key? ctx = some (key, p'')) (hnew : key ∉ seen)
    (hv : Reads ctx (.property key false) p'' [n] q)
    (hr : Reads ctx (.members (key :: seen) true) q ns r) :
    Reads ctx (.members seen b) p (n :: ns) r := by
  have hseen : seen.contains key = false := by simpa using hnew
  exact hb.property hkey (by rw [hseen]; exact hv) hr

end

end AnnotatedJson.Cursor

namespace AnnotatedJson.Literal

open Cursor

/-! ## Whole texts -/

theorem opening_calm {ctx : ParseContext} {tokens : List Token} {Allowed : Problem → Prop}
    (h : Token.Ended tokens) (hc : ∀ t ∈ tokens, Calm ctx Allowed t) :
    Fair ctx tokens Allowed (opening ctx tokens) (visible tokens) := by
  obtain ⟨ds, hd, hcom, hr⟩ := opening_stream ctx h
  refine ⟨hr, hc, ⟨ds, hd.symm⟩, ?_, draw_allowed hc false fun e he => absurd he List.not_mem_nil⟩
  calc visible (opening ctx tokens).stream
      = visible (ds ++ (opening ctx tokens).stream) := by
        rw [visible_append, visible_comments hcom, List.nil_append]
    _ = visible tokens := by rw [← hd]

theorem opening_fair {ctx : ParseContext} {tokens : List Token} (h : Token.Ended tokens)
    (hq : ∀ t ∈ tokens, Quiet ctx t) (Allowed : Problem → Prop) :
    Fair ctx tokens Allowed (opening ctx tokens) (visible tokens) :=
  opening_calm h fun t ht => (hq t ht).calm

/-- A text whose value is followed by the end of input is parsed into that value. -/
theorem parse_of_fair {cs : Text} {allow : Bool} {Allowed : Problem → Prop} {n : Node} {q : Cursor}
    {e : Token} (h : Reads (context cs allow) .value (opening (context cs allow) (Token.scan cs)) [n] q)
    (hq : Fair (context cs allow) (Token.scan cs) Allowed q [e]) (he : e.kind = .eof) :
    parse cs allow = ⟨some n, q.nextId, q.errors, q.comments⟩ := by
  have hc : closing (context cs allow) [n] q = q := by simp [closing, hq.kind, he]
  rw [parse_of_reads h, ofReading, hc]
  rfl

end AnnotatedJson.Literal
