/-
  Parsing under a mask.

  A masked text has blanks before the part that is shown, as many bytes as it hides.

  * `Text.maskPrefix_eq`: what a masked text consists of;
  * `Token.Scans.masked`: its tokens are those of the shown part, moved to the right; a
    line feed in the mask is seen by the first one only;
  * `Reads.aside`: no reading of a value looks for a line feed before its first token;
  * `Literal.parse_maskPrefix`: the parse of a masked text is the parse of the shown part,
    moved to the right.
-/
import Mathlib
import AnnotatedJson.Text.Mask
import AnnotatedJson.Proofs.Placement
import AnnotatedJson.Proofs.Shift

namespace AnnotatedJson

namespace Text

/-! ## The mask -/

theorem maskChar_blank (c : Char) : ∀ x ∈ maskChar c, isBlank x = true := by
  intro x hx
  unfold maskChar at hx
  split at hx
  · next h =>
    rw [List.mem_singleton.1 hx]
    rcases h with rfl | rfl <;> rfl
  · rw [(List.mem_replicate.1 hx).2]
    rfl

theorem bytes_replicate (n : Nat) : bytes (List.replicate n ' ') = n := by
  induction n with
  | zero => rfl
  | succ n ih =>
    rw [List.replicate_succ, bytes_cons, ih, show (' ' : Char).utf8Size = 1 from rfl]
    omega

theorem bytes_maskChar (c : Char) : bytes (maskChar c) = c.utf8Size := by
  unfold maskChar
  split
  · next h => rcases h with rfl | rfl <;> rfl
  · exact bytes_replicate _

theorem blankOut_cons (c : Char) (cs : Text) : blankOut (c :: cs) = maskChar c ++ blankOut cs := rfl

/-- A mask is as long as what it hides. -/
theorem bytes_blankOut (cs : Text) : bytes (blankOut cs) = bytes cs := by
  induction cs with
  | nil => rfl
  | cons c cs ih => rw [blankOut_cons, bytes_append, bytes_maskChar, ih, bytes_cons]

theorem blankOut_blank (cs : Text) : ∀ x ∈ blankOut cs, isBlank x = true := by
  intro x hx
  obtain ⟨c, -, hc⟩ := List.mem_flatMap.1 hx
  exact maskChar_blank c x hc

/-- **A masked text is a mask and the shown part.** -/
theorem maskPrefix_eq {cs t : Text} {s e : Nat} (h : slice? cs ⟨s, e⟩ = some t) :
    ∃ mask, maskPrefix cs s e = mask ++ t ∧ bytes mask = s ∧ ∀ x ∈ mask, isBlank x = true := by
  obtain ⟨a, b, rfl, hs, he⟩ := slice?_eq_some_iff.1 h
  refine ⟨blankOut a, ?_, (bytes_blankOut a).trans hs, blankOut_blank a⟩
  have he' : e = bytes (a ++ t) := by
    rw [bytes_append]
    exact he.symm
  have hs' : s = bytes a := hs.symm
  simp only [maskPrefix, he', takeBytes_append]
  rw [hs', takeBytes_append, dropBytes_append]

end Text

/-! ## The end mark -/

namespace Literal

theorem endMarkFrom_blank {mask : Text} (hm : ∀ x ∈ mask, Text.isBlank x = true) (offset : Nat)
    (last : Option Span) (cs : Text) :
    endMarkFrom offset last (mask ++ cs) = endMarkFrom (offset + Text.bytes mask) last cs := by
  induction mask generalizing offset with
  | nil => rfl
  | cons c mask ih =>
    obtain ⟨hc, hm⟩ := List.forall_mem_cons.1 hm
    rw [List.cons_append, endMarkFrom, if_pos hc, ih hm, Text.bytes_cons, Nat.add_assoc]

theorem endMarkFrom_shift (s : Nat) (cs : Text) (offset : Nat) (last : Option Span)
    (h : last ≠ none ∨ ∃ c ∈ cs, Text.isBlank c = false) :
    endMarkFrom (offset + s) (last.map (Span.shift s)) cs = (endMarkFrom offset last cs).shift s := by
  induction cs generalizing offset last with
  | nil =>
    obtain ⟨l, rfl⟩ := Option.ne_none_iff_exists'.1 (h.resolve_right (by simp))
    rfl
  | cons c cs ih =>
    rw [endMarkFrom, endMarkFrom, Nat.add_right_comm]
    by_cases hc : Text.isBlank c = true
    · rw [if_pos hc, if_pos hc]
      refine ih _ _ (h.imp id ?_)
      rintro ⟨x, hx, hxb⟩
      rcases List.mem_cons.1 hx with rfl | hx
      · rw [hc] at hxb; cases hxb
      · exact ⟨x, hx, hxb⟩
    · rw [if_neg hc, if_neg hc]
      have hspan : some (⟨offset + s, offset + c.utf8Size + s⟩ : Span) =
          (some ⟨offset, offset + c.utf8Size⟩ : Option Span).map (Span.shift s) := rfl
      rw [hspan]
      exact ih _ _ (Or.inl (by simp))

theorem endMark_masked {mask t : Text} (hm : ∀ x ∈ mask, Text.isBlank x = true)
    (ht : ∃ c ∈ t, Text.isBlank c = false) :
    endMark (mask ++ t) = (endMark t).shift (Text.bytes mask) := by
  rw [endMark, endMark, endMarkFrom_blank hm]
  exact endMarkFrom_shift (Text.bytes mask) t 0 none (Or.inr ht)

end Literal

/-! ## The tokens -/

namespace Token

section
variable {gap : Text} (hg : ∀ x ∈ gap, isGap x = true) {c : Char} (hc : isGap c = false) (cs : Text)

include hg hc

theorem takeWhile_gap : (gap ++ c :: cs).takeWhile isGap = gap := by
  rw [List.takeWhile_append_of_pos hg]
  simp [hc]

theorem dropWhile_gap : (gap ++ c :: cs).dropWhile isGap = c :: cs := by
  rw [List.dropWhile_append_of_pos hg]
  simp [hc]

end

section
variable {seen cs : Text} {ts : List Token}

/-- The rules determine the tokens. -/
theorem Scans.scanFrom_eq (h : Scans seen cs ts) (fuel : Nat) (hf : cs.length < fuel) :
    scanFrom fuel (Text.bytes seen) cs = ts := by
  induction h generalizing fuel with
  | @eof seen gap hg =>
    obtain ⟨fuel, rfl⟩ := Nat.exists_eq_add_of_le' (show 1 ≤ fuel by omega)
    rw [scanFrom, List.takeWhile_eq_self_iff.2 hg, List.dropWhile_eq_nil_iff.2 hg]
    simp [endOfInput]
  | @token seen gap c cs ts hg hc _ ih =>
    obtain ⟨fuel, rfl⟩ := Nat.exists_eq_add_of_le' (show 1 ≤ fuel by omega)
    have hlen : (Lexeme.read c cs).2.length < fuel := by
      have h1 := congrArg List.length (Lexeme.rule_read c cs).append
      have h2 := List.length_pos_iff.2 (Lexeme.rule_read c cs).source_ne_nil
      simp only [List.length_append, List.length_cons] at h1 hf
      omega
    rw [scanFrom, takeWhile_gap hg hc, dropWhile_gap hg hc, ← ih fuel hlen]
    simp only [ofLexeme, Text.bytes_append]

theorem Scans.scan_eq (h : Scans [] cs ts) : scan cs = ts := h.scanFrom_eq _ (Nat.lt_succ_self _)

/-- The tokens after a longer text are the same tokens, moved to the right. -/
theorem Scans.shift (h : Scans seen cs ts) (before : Text) :
    Scans (before ++ seen) cs (ts.map (Token.shift (Text.bytes before))) := by
  induction h with
  | @eof seen gap hg =>
    have he : (endOfInput seen gap).shift (Text.bytes before) = endOfInput (before ++ seen) gap := by
      simp only [Token.shift, endOfInput, Span.shift, Text.bytes_append]
      congr 2 <;> omega
    rw [List.map_singleton, he]
    exact .eof hg
  | @token seen gap c cs ts hg hc _ ih =>
    have he : (ofLexeme seen gap (Lexeme.read c cs).1).shift (Text.bytes before) =
        ofLexeme (before ++ seen) gap (Lexeme.read c cs).1 := by
      simp only [Token.shift, ofLexeme, Span.shift, Text.bytes_append]
      congr 2 <;> omega
    rw [List.map_cons, he]
    refine .token hg hc ?_
    simpa only [List.append_assoc] using ih

/-- **Under a mask the tokens are moved to the right**, and the first one sees the line
    feeds of the mask. -/
theorem Scans.masked {mask : Text} (h : Scans [] cs ts) (hm : ∀ x ∈ mask, isGap x = true) :
    ∃ t us b, ts = t :: us ∧ scan (mask ++ cs) =
      { t.shift (Text.bytes mask) with afterBreak := b } :: us.map (Token.shift (Text.bytes mask)) := by
  have hgap : ∀ {gap : Text}, (∀ x ∈ gap, isGap x = true) → ∀ x ∈ mask ++ gap, isGap x = true :=
    fun hg => List.forall_mem_append.2 ⟨hm, hg⟩
  -- The mask is part of the gap before the first token.
  cases h with
  | @eof _ gap hg =>
    refine ⟨_, [], (mask ++ cs).contains '\n', rfl, (Scans.eof (hgap hg)).scan_eq.trans ?_⟩
    simp only [endOfInput, Token.shift, Span.shift, Text.bytes_append, List.nil_append, List.map_nil]
    congr 3 <;> omega
  | @token _ gap c cs us hg hc hrest =>
    have hmoved := hrest.shift mask
    have hall : Scans [] (mask ++ gap ++ c :: cs) _ := .token (hgap hg) hc (by
      simpa only [List.nil_append, List.append_assoc] using hmoved)
    rw [List.append_assoc] at hall
    refine ⟨_, us, (mask ++ gap).contains '\n', rfl, hall.scan_eq.trans ?_⟩
    simp only [ofLexeme, Token.shift, Span.shift, Text.bytes_append, List.nil_append]
    congr 3 <;> omega

end

end Token

/-! ## The first token -/

namespace Cursor

/-- The cursor with another current token. -/
def aside (c : Token) (broken : Bool) (p : Cursor) : Cursor :=
  { p with current := c, afterBreak := broken }

variable (c : Token) (y : Bool) (ctx : ParseContext) (p : Cursor)

theorem report_aside (problem : Problem) (span : Span) :
    (p.aside c y).report problem span = (p.report problem span).aside c y := by
  unfold report
  have h : (p.aside c y).lastProblem = p.lastProblem := rfl
  rw [h]
  split <;> rfl

theorem noteFault_aside (t : Token) : (p.aside c y).noteFault t = (p.noteFault t).aside c y := by
  unfold noteFault
  split
  · exact report_aside ..
  · rfl

theorem noteComment_aside (t : Token) :
    (p.aside c y).noteComment ctx t = (p.noteComment ctx t).aside c y := by
  unfold noteComment
  dsimp only
  split
  · rfl
  · rw [report_aside]
    rfl

/-- Drawing replaces the current token. -/
theorem draw_aside {ts : List Token} (h : Token.Ended ts) (broken : Bool) :
    (p.aside c y).draw ctx broken ts = p.draw ctx broken ts := by
  have hfault : ∀ (p : Cursor) (t : Token),
      noteFault { p.aside c y with drawn := (p.aside c y).drawn + 1 } t =
        (noteFault { p with drawn := p.drawn + 1 } t).aside c y :=
    fun p t => noteFault_aside c y { p with drawn := p.drawn + 1 } t
  induction h generalizing p broken with
  | @last t ht =>
    have hn : ¬ t.kind.isComment = true := by rw [ht]; simp [TokenKind.isComment]
    have hdraw : ∀ p : Cursor, p.draw ctx broken [t] =
        { noteFault { p with drawn := p.drawn + 1 } t with
        current := t, rest := [], afterBreak := broken || t.afterBreak } :=
      fun p => by rw [draw, if_neg hn]
    rw [hdraw, hdraw, hfault]
    rfl
  | @cons t ts _ _ ih =>
    rw [draw, draw, hfault]
    split
    · rw [noteComment_aside, ih]
    · rfl

theorem advance_aside {p : Cursor} (hp : Ready p) (hk : p.kind ≠ .eof) :
    (p.aside c y).advance ctx = p.advance ctx :=
  draw_aside c y ctx p (hp.rest_ended hk) false

/-- How drawing starts shows in the current token only. -/
theorem draw_broken (b b' : Bool) (ts : List Token) :
    ∃ y, p.draw ctx b ts = (p.draw ctx b' ts).aside (p.draw ctx b' ts).current y := by
  induction ts generalizing p b b' with
  | nil => exact ⟨p.afterBreak, rfl⟩
  | cons t ts ih =>
    rw [draw, draw]
    split
    · exact ih ..
    · exact ⟨_, rfl⟩

variable {c y ctx p}

/-- A token that differs at most in what stands before it. -/
structure Same (t c : Token) : Prop where
  kind : c.kind = t.kind
  span : c.span = t.span
  value : c.value = t.value

theorem Same.refl (t : Token) : Same t t := ⟨rfl, rfl, rfl⟩

theorem blame_aside (h : Same p.current c) (problem : Problem) :
    (p.aside c y).blame ctx problem = (p.blame ctx problem).aside c y := by
  unfold blame
  have hs : (p.aside c y).current.span = p.current.span := h.span
  dsimp only
  rw [hs, report_aside]

theorem takeAtom_aside (hp : Ready p) (hk : p.kind ≠ .eof) (h : Same p.current c) (a : Atom) :
    (p.aside c y).takeAtom ctx a = p.takeAtom ctx a := by
  have hadv : (p.fresh.2.aside c y).advance ctx = p.fresh.2.advance ctx :=
    advance_aside c y ctx (hp.of_stream rfl) hk
  have hst : (p.aside c y).start = p.start := congrArg Span.start h.span
  have hsp : (p.aside c y).stop = p.stop := congrArg Span.stop h.span
  unfold takeAtom
  refine Prod.ext ?_ hadv
  exact congrArg₂ (fun a b => Node.atom ⟨p.nextId, a, b - a⟩ _) hst hsp

theorem atom?_aside (h : Same p.current c) {a : Atom} {q : Cursor} (ha : p.atom? ctx = some (a, q)) :
    (p.aside c y).atom? ctx = some (a, q.aside c y) := by
  have hk : (p.aside c y).kind = p.kind := h.kind
  have hv : (p.aside c y).current.value = p.current.value := h.value
  unfold atom? at ha ⊢
  rw [hk, hv, blame_aside h]
  split at ha
  case h_2 => split at ha <;> cases ha <;> simp_all
  all_goals cases ha <;> rfl

/-- **What stands before the first token of a value does not matter.** -/
theorem Reads.aside {out : List Node} {q : Cursor} (h : Reads ctx .value p out q) (hp : Ready p)
    (hc : Same p.current c) :
    ∃ q', Reads ctx .value (p.aside c y) out q' ∧ (q' = q ∨ out = [] ∧ q = p ∧ q' = p.aside c y) := by
  have hk : (p.aside c y).kind = p.kind := hc.kind
  have hst : (p.aside c y).start = p.start := congrArg Span.start hc.span
  have hopen : p.kind ≠ .eof → (p.aside c y).fresh.2.advance ctx = p.fresh.2.advance ctx :=
    fun hk => advance_aside c y ctx (p := p.fresh.2) (hp.of_stream rfl) hk
  cases h with
  | object hk' hr =>
    rw [← hopen (by rw [hk']; simp)] at hr
    have := Reads.object (p := p.aside c y) (hk.trans hk') hr
    rw [hst] at this
    exact ⟨_, this, Or.inl rfl⟩
  | array hk' hr =>
    rw [← hopen (by rw [hk']; simp)] at hr
    have := Reads.array (p := p.aside c y) (hk.trans hk') hr
    rw [hst] at this
    exact ⟨_, this, Or.inl rfl⟩
  | @atom _ a r ha =>
    obtain ⟨hv, hr⟩ := atom?_spec ha
    have hcr : Same r.current c := by rcases hr with rfl | rfl <;> simpa using hc
    have hrr : Ready r := by
      rcases hr with rfl | rfl
      · exact hp
      · exact hp.of_stream (by simp)
    have hkr : r.kind ≠ .eof := by
      rcases hr with rfl | rfl <;> simpa using startsValue_ne_eof hv
    have := Reads.atom (atom?_aside (y := y) hc ha)
    rw [takeAtom_aside hrr hkr hcr] at this
    exact ⟨_, this, Or.inl rfl⟩
  | noValue hn => exact ⟨_, .noValue (by rw [hk]; exact hn), Or.inr ⟨rfl, rfl, rfl⟩⟩

variable (ctx p) in
/-- What stands before the first token shows in the current token only. -/
theorem draw_first (t : Token) (b : Bool) (ts : List Token) :
    ∃ c y, Same (p.draw ctx false (t :: ts)).current c ∧
      p.draw ctx false ({ t with afterBreak := b } :: ts) = (p.draw ctx false (t :: ts)).aside c y := by
  rw [draw, draw]
  split
  · obtain ⟨y, hy⟩ := draw_broken ctx (noteComment ctx (noteFault { p with drawn := p.drawn + 1 } t) t)
      (false || b || t.value.contains '\n') (false || t.afterBreak || t.value.contains '\n') ts
    exact ⟨_, y, .refl _, hy⟩
  · exact ⟨{ t with afterBreak := b }, false || b, ⟨rfl, rfl, rfl⟩, rfl⟩

end Cursor

namespace Literal

open Cursor

/-! ## Whole texts -/

section
variable {ctx : ParseContext} {s : Nat} {out : List Node} {q : Cursor}

theorem ofReading_aside {c : Token} {y : Bool} (hc : Same q.current c) :
    ofReading ctx [] (q.aside c y) = ofReading ctx [] q := by
  simp only [ofReading, closing, List.isEmpty_nil, ↓reduceIte]
  rw [blame_aside hc]
  rfl

theorem shiftAll_isEmpty : (Node.shiftAll s out).isEmpty = out.isEmpty := by
  cases out <;> rfl

theorem shiftAll_head? : (Node.shiftAll s out).head? = out.head?.map (Node.shift s) := by
  cases out <;> rfl

theorem ofReading_shift (hq : Solid q) :
    ofReading (ctx.shift s) (Node.shiftAll s out) (q.shift s) = (ofReading ctx out q).shift s := by
  have hclosing : closing (ctx.shift s) (Node.shiftAll s out) (q.shift s) =
      (closing ctx out q).shift s := by
    unfold closing
    rw [shiftAll_isEmpty, blame_shift s ctx hq, blame_shift s ctx hq, shift_kind]
    split_ifs <;> rfl
  simp only [ofReading, hclosing, shiftAll_head?]
  rfl

end

/-- The first token of a masked text. -/
theorem opening_masked {mask t : Text} (hm : ∀ x ∈ mask, Token.isGap x = true) (ctx : ParseContext) :
    ∃ c y, Same ((opening ctx (Token.scan t)).shift (Text.bytes mask)).current c ∧
      opening (ctx.shift (Text.bytes mask)) (Token.scan (mask ++ t)) =
        ((opening ctx (Token.scan t)).shift (Text.bytes mask)).aside c y := by
  obtain ⟨x, us, b, hts, hscan⟩ := (Token.scans_scan t).masked hm
  have hmoved := (Token.scans_scan t).shift mask
  rw [List.append_nil] at hmoved
  -- The cursor before the first token is not moved, but its token is not read.
  have hstart : (opening ctx (Token.scan t)).shift (Text.bytes mask) =
      opening (ctx.shift (Text.bytes mask)) ((Token.scan t).map (Token.shift (Text.bytes mask))) := by
    rw [opening, ← draw_shift]
    exact draw_aside ((default : Token).shift (Text.bytes mask)) false _ default hmoved.ended false
  rw [hstart, hscan, hts, List.map_cons]
  exact draw_first _ default _ b _

/-- The end of input does not start a text that is not empty. -/
theorem opening_firm {t : Text} (ht : t ≠ []) (ctx : ParseContext) :
    Firm (opening ctx (Token.scan t)) := by
  obtain ⟨ds, hds, -, hready⟩ := opening_stream ctx (Token.scans_scan t).ended
  refine ⟨hready, fun x hx hempty => ?_⟩
  have hplaced : x.Placed t := (Token.scans_scan t).placed x (hds ▸ List.mem_append_right _ hx)
  by_cases hk : x.kind = .eof
  · rw [(hplaced.eof hk).1]
    exact Text.bytes_pos ht
  · exact absurd hempty (hplaced.start_lt_stop hk).ne

/-- **The parse of a masked text is the parse of the shown part, moved to the right.** -/
theorem parse_maskPrefix {cs t : Text} {s e : Nat} (h : Text.slice? cs ⟨s, e⟩ = some t)
    (hv : ∃ c ∈ t, Text.isBlank c = false) (allow : Bool) :
    parse (Text.maskPrefix cs s e) allow = (parse t allow).shift s := by
  obtain ⟨mask, heq, rfl, hm⟩ := Text.maskPrefix_eq h
  have hctx : context (mask ++ t) allow = (context t allow).shift (Text.bytes mask) := by
    rw [context, endMark_masked hm hv]
    rfl
  have hgap : ∀ x ∈ mask, Token.isGap x = true := fun x hx => by simp [Token.isGap, hm x hx]
  have ht : t ≠ [] := by
    rintro rfl
    obtain ⟨c, hc, -⟩ := hv
    cases hc
  have hfirm := opening_firm ht (context t allow)
  obtain ⟨out, q, hr, hp⟩ := parse_eq t allow
  obtain ⟨c, y, hc, hopen⟩ := opening_masked hgap (context t allow)
  obtain ⟨q', hr', hq'⟩ := (hr.shift hfirm).aside (c := c) (y := y) (hfirm.toReady.shift _) hc
  rw [← hopen, ← hctx] at hr'
  rw [heq, parse_of_reads hr', hp, hctx, ← ofReading_shift (hr.firm hfirm).solid]
  rcases hq' with rfl | ⟨hnil, hq, rfl⟩
  · rfl
  · -- No value starts at the first token.
    rw [hnil, hq]
    exact ofReading_aside hc

theorem parse_maskPrefix_line :
    Text.slice? ['é', '\n', '[', '1', ',', ']', ';'] ⟨3, 7⟩ = some ['[', '1', ',', ']'] ∧
    parse (Text.maskPrefix ['é', '\n', '[', '1', ',', ']', ';'] 3 7) false =
      (parse ['[', '1', ',', ']'] false).shift 3 :=
  ⟨by decide, parse_maskPrefix (by decide) ⟨'[', by decide, by decide⟩ false⟩

end Literal

end AnnotatedJson
