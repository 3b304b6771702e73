/-
  Repeated keys are told.

  A problem is dropped if the last one was at the same offset, so a repeated key need not be told as
  such.  What is told in its place follows from the tokens: a fault inside of the key, or that no
  comma stands before it.  Nothing that shorthand causes hides a key in double quotes.

  * `Text.tokenBefore?`: the token before an offset;
  * `Problem.atRepeatedKey`: what is told at a repeated key;
  * `Cursor.Watched`: the last problem does not lie ahead, and the fault of the current token is
    recorded; `Reads.watched`: every reading keeps to that;
  * `Cursor.RightAfter`: a string that comes right after a property, and `Reads.rightAfter`: the
    reading of a property ends so;
  * `Node.Told`, `Reads.tells`: all repeated keys of an object are told;
  * `Literal.repeated_keys_told` says so of the errors that are left without those of
    shorthand.
-/
import Mathlib
import AnnotatedJson.Literal.Repair
import AnnotatedJson.Proofs.Content
import AnnotatedJson.Proofs.Indices
import AnnotatedJson.Proofs.Record
import AnnotatedJson.Proofs.Shorthand

namespace AnnotatedJson

/-- The text at a span starts with a double quote. -/
def Text.StartsQuoted (cs : Text) (s : Span) : Prop := ∃ body, slice? cs s = some ('"' :: body)

/-- The last token before an offset that is no comment. -/
def Text.tokenBefore? (cs : Text) (o : Nat) : Option Token :=
  ((Cursor.visible (Token.scan cs)).filter fun t => t.span.start < o).getLast?

/-- What is told at a repeated key in double quotes, where `m` is the property before it, `t` the
    token before it and `u` its own token: a fault inside of it, or else that it is repeated.  Where
    no comma stands before it, that is told instead, or that the key before it, which has no value,
    lacks its colon. -/
def Problem.atRepeatedKey (m : Node) (t u : Token) : Problem :=
  match u.fault with
  | some f => .fault f
  | none =>
    if t.kind = .comma then .duplicateKey
    else if m.value?.isNone then .colonExpected
    else .commaExpected

theorem Problem.atRepeatedKey_fault (m : Node) (t : Token) {u : Token} {fault : Fault}
    (h : u.fault = some fault) : atRepeatedKey m t u = .fault fault := by
  rw [atRepeatedKey, h]

theorem Problem.atRepeatedKey_comma (m : Node) {t u : Token} (h : u.fault = none)
    (ht : t.kind = .comma) : atRepeatedKey m t u = .duplicateKey := by
  rw [atRepeatedKey, h, ht]
  rfl

theorem Problem.atRepeatedKey_other (m : Node) {t u : Token} (h : u.fault = none)
    (ht : t.kind ≠ .comma) :
    atRepeatedKey m t u = if m.value?.isNone then .colonExpected else .commaExpected := by
  rw [atRepeatedKey, h]
  exact if_neg ht

/-- Only strings start with a double quote. -/
theorem Token.kind_of_startsQuoted {cs : Text} {t : Token} (ht : t ∈ scan cs) (hk : t.kind ≠ .eof)
    (h : cs.StartsQuoted t.span) : t.kind = .string := by
  obtain ⟨body, hs⟩ := h
  obtain ⟨c, rest, r, hrule, hsource, hkind, -⟩ := exists_rule_of_slice ht hk hs
  have hc : '"' = c := by
    have happ := hrule.append
    rw [hsource] at happ
    exact (List.cons.inj happ).1
  subst hc
  rw [hkind]
  cases hrule with
  | single h => cases h
  | string _ => simp
  | word _ hne _ _ => exact absurd rfl hne
  | lineComment h _ | blockComment h _ | slash h | minus h _ => cases h
  | digits h => cases h

namespace Cursor

variable {ctx : ParseContext} {cs : Text} {p q : Cursor} {t : Token}

/-! ## The token before -/

/-- `t` is the last token before the current one that is no comment. -/
def Behind (cs : Text) (t : Token) (p : Cursor) : Prop :=
  t :: visible p.stream <:+ visible (Token.scan cs)

theorem Behind.of_stream (h : Behind cs t p) (hs : q.stream = p.stream) : Behind cs t q := by
  rw [Behind, hs]
  exact h

theorem Behind.tokenBefore? (h : Behind cs t p) (hp : Ready p) :
    cs.tokenBefore? p.start = some t := by
  obtain ⟨before, hb⟩ := h
  have hsplit : visible (Token.scan cs) = (before ++ [t]) ++ p.current :: visible p.rest := by
    rw [← hb, hp.visible_stream, List.append_assoc, List.singleton_append]
  have hascending := Literal.visible_ascending cs
  rw [hsplit] at hascending
  obtain ⟨-, hfrom, hbefore⟩ := List.pairwise_append.1 hascending
  have hall : (before ++ [t]).filter (fun u => u.span.start < p.start) = before ++ [t] :=
    List.filter_eq_self.2 fun u hu => decide_eq_true (hbefore u hu p.current List.mem_cons_self)
  have hnone : (p.current :: visible p.rest).filter (fun u => u.span.start < p.start) = [] := by
    refine List.filter_eq_nil_iff.2 fun u hu => ?_
    rcases List.mem_cons.1 hu with rfl | hu
    · simp [Cursor.start]
    · have hle : p.start ≤ u.span.start := ((List.pairwise_cons.1 hfrom).1 u hu).le
      simpa using hle
  rw [Text.tokenBefore?, hsplit, List.filter_append, hall, hnone, List.append_nil,
    List.getLast?_concat]

/-! ## The last problem -/

/-- The last problem does not lie ahead, and the fault of the current token is recorded. -/
structure Settled (p : Cursor) : Prop where
  behind : ∀ o ∈ p.lastProblem, p.kind ≠ .eof → o ≤ p.start
  faulty : ∀ fault, p.current.fault = some fault → ⟨.fault fault, p.current.span⟩ ∈ p.errors

/-- Nothing but a fault of the current token is told at it yet. -/
def Clear (p : Cursor) : Prop := p.current.fault = none → p.lastProblem ≠ some p.start

theorem report_lastProblem (problem : Problem) (span : Span) :
    (p.report problem span).lastProblem = some span.start := by
  unfold report
  split
  · assumption
  · rfl

/-- A problem is recorded unless the last one was at its offset. -/
theorem mem_report_errors {problem : Problem} {span : Span} (h : p.lastProblem ≠ some span.start) :
    ⟨problem, span⟩ ∈ (p.report problem span).errors := by
  rw [report, if_neg h]
  exact List.mem_append_right _ List.mem_cons_self

theorem Settled.report {problem : Problem} {span : Span} (h : Settled p)
    (hle : p.kind ≠ .eof → span.start ≤ p.start) : Settled (p.report problem span) := by
  constructor
  · intro o ho hk
    rw [report_lastProblem] at ho
    rw [report_kind] at hk
    cases ho
    rw [report_start]
    exact hle hk
  · intro fault hf
    rw [report_current] at hf ⊢
    exact (report_grows p problem span).subset (h.faulty fault hf)

theorem noteFault_none (h : t.fault = none) : p.noteFault t = p := by
  rw [noteFault, h]

theorem noteFault_some {fault : Fault} (h : t.fault = some fault) :
    p.noteFault t = p.report (.fault fault) t.span := by
  rw [noteFault, h]

theorem noteFault_lastProblem (t : Token) : (p.noteFault t).lastProblem = p.lastProblem ∨
    (p.noteFault t).lastProblem = some t.span.start := by
  cases hf : t.fault with
  | none => exact Or.inl (congrArg lastProblem (noteFault_none hf))
  | some fault => exact Or.inr (by rw [noteFault_some hf, report_lastProblem])

variable (ctx p) in
/-- A comment is the last problem, if it is one. -/
theorem comment_lastProblem (t : Token) :
    ((p.noteFault t).noteComment ctx t).lastProblem = p.lastProblem ∨
      ((p.noteFault t).noteComment ctx t).lastProblem = some t.span.start := by
  unfold noteComment
  dsimp only
  split
  · exact noteFault_lastProblem t
  · exact Or.inr (report_lastProblem _ _)

/-- What is known of a cursor that has drawn the tokens `ts`. -/
structure Drawn (p q : Cursor) (ts : List Token) : Prop where
  settled : Settled q
  clear : Clear q
  /-- A problem that was found is at one of the tokens. -/
  last : q.lastProblem = p.lastProblem ∨ ∃ t ∈ ts, q.lastProblem = some t.span.start

variable (ctx) in
/-- Tokens drawn after the last problem.  By induction on them: comments are passed, and the first
    token that is none becomes the current one. -/
theorem drawn_draw {ts : List Token} (he : Token.Ended ts)
    (ho : ts.Pairwise fun a b => a.span.stop ≤ b.span.start) (hplaced : ∀ t ∈ ts, t.Placed cs)
    (hl : ∀ o ∈ p.lastProblem, ∀ t ∈ ts, o < t.span.start) (broken : Bool) :
    Drawn p (p.draw ctx broken ts) ts := by
  induction ts generalizing p broken with
  | nil => cases he
  | cons t ts ih =>
    rw [draw]
    split
    · next hc =>
      have hk : t.kind ≠ .eof := by
        rintro hk
        rw [hk] at hc
        cases hc
      have hlast := comment_lastProblem ctx { p with drawn := p.drawn + 1 } t
      have hl' : ∀ o ∈ (noteComment ctx (noteFault { p with drawn := p.drawn + 1 } t) t).lastProblem,
          ∀ u ∈ ts, o < u.span.start := by
        intro o ho' u hu
        rcases hlast with h | h <;> rw [h] at ho'
        · exact hl o ho' u (List.mem_cons_of_mem _ hu)
        · cases ho'
          exact ((hplaced t (List.mem_cons_self ..)).start_lt_stop hk).trans_le
            ((List.pairwise_cons.1 ho).1 u hu)
      have h := ih (he.tail hk) (List.pairwise_cons.1 ho).2
        (fun u hu => hplaced u (List.mem_cons_of_mem _ hu)) hl'
        (broken || t.afterBreak || t.value.contains '\n')
      refine ⟨h.settled, h.clear, ?_⟩
      rcases h.last with h | ⟨u, hu, h⟩
      · rw [h]
        exact hlast.imp id fun h => ⟨t, List.mem_cons_self .., h⟩
      · exact Or.inr ⟨u, List.mem_cons_of_mem _ hu, h⟩
    · have hfirst : ∀ o ∈ p.lastProblem, o < t.span.start := fun o ho =>
        hl o ho t (List.mem_cons_self ..)
      have hfresh : p.lastProblem ≠ some t.span.start := fun h => (hfirst _ h).ne rfl
      have hlast : (noteFault { p with drawn := p.drawn + 1 } t).lastProblem = p.lastProblem ∨ _ :=
        noteFault_lastProblem t
      refine ⟨⟨fun o ho _ => ?_, fun fault hf => ?_⟩, fun hf => ?_,
        hlast.imp id fun h => ⟨t, List.mem_cons_self .., h⟩⟩
      · rcases hlast with h | h
        · exact (hfirst o (h ▸ ho)).le
        · cases h.symm.trans ho
          exact le_refl _
      · show _ ∈ (noteFault _ t).errors
        rw [noteFault_some hf]
        exact mem_report_errors hfresh
      · show (noteFault _ t).lastProblem ≠ _
        rw [noteFault_none hf]
        exact hfresh

/-! ## Watched cursors -/

/-- A cursor in the tokens of a text whose last problem is accounted for. -/
structure Watched (cs : Text) (p : Cursor) : Prop extends On cs p where
  suffix : p.stream <:+ Token.scan cs
  settled : Settled p

theorem Watched.drawn (h : Watched cs p) (hk : p.kind ≠ .eof) : Drawn p (p.advance ctx) p.rest := by
  have hlt := h.toOn.start_lt_stop hk
  refine drawn_draw ctx (h.toReady.rest_ended hk) (List.pairwise_cons.1 h.ordered).2
    (fun t ht => h.placed t (List.mem_cons_of_mem _ ht)) (fun o ho t ht => ?_) false
  have h₁ := h.settled.behind o ho hk
  have h₂ := h.toOn.stop_le_of_mem ht
  omega

theorem Watched.of_moves (h : Watched cs p) (hm : Moves ctx (Token.scan cs) p q) (hs : Settled q) :
    Watched cs q :=
  ⟨hm.on h.toOn, (hm.suffix h.toReady).1.trans h.suffix, hs⟩

theorem Watched.advance (h : Watched cs p) (hk : p.kind ≠ .eof) : Watched cs (p.advance ctx) :=
  h.of_moves (moves_advance hk) (h.drawn hk).settled

/-- Moving on finds no problem at the token that is passed. -/
theorem Watched.advance_lastProblem (h : Watched cs p) (hk : p.kind ≠ .eof)
    (hl : p.lastProblem ≠ some p.start) : (p.advance ctx).lastProblem ≠ some p.start := by
  intro ho
  rcases (h.drawn hk).last with he | ⟨t, ht, he⟩
  · exact hl (he.symm.trans ho)
  · have h₁ := h.toOn.start_lt_stop hk
    have h₂ := h.toOn.stop_le_of_mem ht
    have h₃ : t.span.start = p.start := Option.some.inj (he.symm.trans ho)
    omega

/-- The token that is passed is the one before. -/
theorem Watched.behind_advance (h : Watched cs p) (hk : p.kind ≠ .eof) :
    Behind cs p.current (p.advance ctx) := by
  have hvisible : visible (p.advance ctx).stream = visible p.rest := by
    obtain ⟨ds, hstream, hds, -⟩ := advance_stream ctx h.toReady hk
    rw [hstream, visible_append, visible_comments hds, List.nil_append]
  rw [Behind, hvisible, ← h.toReady.visible_stream]
  exact h.suffix.filter _

theorem Watched.fresh (h : Watched cs p) : Watched cs p.fresh.2 :=
  ⟨h.toOn.fresh, h.suffix, ⟨h.settled.behind, h.settled.faulty⟩⟩

theorem Watched.report {problem : Problem} {span : Span} (h : Watched cs p)
    (hle : p.kind ≠ .eof → span.start ≤ p.start) : Watched cs (p.report problem span) :=
  ⟨h.toOn.of_suffix (by simp) (h.toReady.of_stream (by simp)), by simpa using h.suffix,
    h.settled.report hle⟩

variable (ctx) in
theorem Watched.blame_eq (h : Watched cs p) (hk : p.kind ≠ .eof) (problem : Problem) :
    p.blame ctx problem = p.report problem p.current.span := by
  have hlt : p.current.span.start < p.current.span.stop := h.toOn.start_lt_stop hk
  rw [Cursor.blame, if_neg fun he => hlt.ne he.1]

theorem Watched.blame (h : Watched cs p) (problem : Problem) :
    Watched cs (p.blame ctx problem) := by
  by_cases hk : p.kind = .eof
  · exact h.report fun hne => absurd hk hne
  · rw [h.blame_eq ctx hk]
    exact h.report fun _ => le_refl _

/-- A problem at the current token is recorded unless the last one was there. -/
theorem Watched.mem_blame (h : Watched cs p) (hk : p.kind ≠ .eof)
    (hl : p.lastProblem ≠ some p.start) (problem : Problem) :
    ⟨problem, p.current.span⟩ ∈ (p.blame ctx problem).errors := by
  rw [h.blame_eq ctx hk]
  exact mem_report_errors hl

theorem Watched.separate (h : Watched cs p) (b : Bool) (problem : Problem) :
    Watched cs (p.separate ctx b problem) := by
  unfold Cursor.separate
  split
  · next hk =>
    split
    · exact h.advance (by rw [hk]; simp)
    · exact (h.blame problem).advance (by rw [blame_kind, hk]; simp)
  · split
    · exact h.blame _
    · exact h

theorem Watched.skipLoop (h : Watched cs p) (stops : List TokenKind) (fuel : Nat) :
    Watched cs (p.skipLoop ctx stops fuel) := by
  induction fuel generalizing p with
  | zero => exact h
  | succ fuel ih =>
    rw [Cursor.skipLoop]
    split
    · exact h
    · next hk => exact ih (h.advance fun he => hk (Or.inl he))

theorem Watched.recover (h : Watched cs p) (problem : Problem) (stops : List TokenKind) :
    Watched cs (p.recover ctx problem stops) :=
  (h.blame problem).skipLoop stops _

theorem Watched.trailing (h : Watched cs p) (hk : p.kind = .comma) (b : Bool) (problem : Problem) :
    Watched cs ((p.separate ctx b problem).noteTrailing b p.start) := by
  have hne : p.kind ≠ .eof := by rw [hk]; simp
  unfold noteTrailing
  split
  · next hb =>
    have hsep : p.separate ctx b problem = p.advance ctx := by simp [Cursor.separate, hk, hb]
    refine (h.separate b problem).report fun _ => ?_
    rw [hsep]
    exact ((h.toOn.start_lt_stop hne).trans_le (h.toOn.stop_le_advance hne)).le
  · exact h.separate b problem

theorem Watched.key? {key : Text} (h : Watched cs p) (hkey : p.key? ctx = some (key, q)) :
    Watched cs q := by
  rcases key?_spec hkey with ⟨-, -, rfl⟩ | ⟨-, -, rfl⟩
  · exact h
  · exact h.blame _

theorem Watched.passKey (h : Watched cs p) (hk : p.kind ≠ .eof) (rep : Bool) :
    Watched cs (p.passKey ctx rep) := by
  have h₁ : Watched cs (p.fresh.2.fresh.2.advance ctx) := h.fresh.fresh.advance hk
  unfold Cursor.passKey
  dsimp only
  split
  · exact h₁.report fun _ =>
      ((h.toOn.start_lt_stop hk).trans_le (h.fresh.fresh.toOn.stop_le_advance hk)).le
  · exact h₁

theorem Watched.passColon (h : Watched cs p) : Watched cs (p.passColon ctx) := by
  unfold Cursor.passColon
  split
  · next hk => exact h.advance (by rw [hk]; simp)
  · exact h.blame _

theorem Watched.passNoValue (h : Watched cs p) : Watched cs (p.passNoValue ctx) := by
  unfold Cursor.passNoValue
  split
  · exact h
  · exact h.recover _ _

theorem Watched.close {closer : TokenKind} (h : Watched cs p) (hc : closer ≠ .eof) (id start : Nat)
    (problem : Problem) : Watched cs (p.close ctx id start closer problem).2 := by
  unfold Cursor.close
  split
  · next he => exact h.advance (he ▸ hc)
  · exact h.blame _

theorem Watched.atom? {a : Atom} (h : Watched cs p) (ha : p.atom? ctx = some (a, q)) :
    Watched cs q ∧ startsValue q.kind = true := by
  obtain ⟨hv, rfl | rfl⟩ := atom?_spec ha
  · exact ⟨h, hv⟩
  · exact ⟨h.blame _, by rwa [blame_kind]⟩

/-- **Every reading stays watched.** -/
theorem Reads.watched {task : Task} {out : List Node} (h : Reads ctx task p out q)
    (hp : Watched cs p) : Watched cs q := by
  induction h with
  | object hk _ ih =>
    exact (ih (hp.fresh.advance (by rw [fresh_kind, hk]; simp))).close (by simp) _ _ _
  | array hk _ ih =>
    exact (ih (hp.fresh.advance (by rw [fresh_kind, hk]; simp))).close (by simp) _ _ _
  | atom ha =>
    obtain ⟨hq, hv⟩ := hp.atom? ha
    exact hq.fresh.advance (startsValue_ne_eof hv)
  | noValue _ | itemsEnd _ | membersEnd _ => exact hp
  | itemsTrailing hk _ | membersTrailing hk _ => exact hp.trailing hk _ _
  | item _ _ _ ih₁ ih₂ => exact ih₂ (ih₁ (hp.separate _ _))
  | noItem _ _ _ ih => exact ih ((hp.separate _ _).recover _ _)
  | leftover _ _ _ _ _ ih => exact ih (hp.recover _ _)
  | member _ _ hkey _ _ ih₁ ih₂ => exact ih₂ (ih₁ ((hp.separate _ _).key? hkey))
  | noMember _ _ _ _ ih => exact ih ((hp.separate _ _).recover _ _)
  | nextLine hk _ => exact (hp.passKey hk _).passColon
  | valued hk _ _ ih => exact ih (hp.passKey hk _).passColon
  | valueless hk _ _ => exact ((hp.passKey hk _).passColon).passNoValue

/-! ## The end of a property -/

/-- Skipping ends where it should. -/
theorem skipLoop_kind {stops : List TokenKind} {fuel : Nat} (hp : Ready p)
    (hf : p.rest.length < fuel) :
    (p.skipLoop ctx stops fuel).kind = .eof ∨ (p.skipLoop ctx stops fuel).kind ∈ stops := by
  induction fuel generalizing p with
  | zero => exact absurd hf (Nat.not_lt_zero _)
  | succ fuel ih =>
    rw [skipLoop]
    split
    · next h => exact h
    · next h =>
      have hk : p.kind ≠ .eof := fun hk => h (Or.inl hk)
      have := advance_shrinks ctx hp hk
      exact ih (hp.advance ctx hk) (by omega)

/-- Recovering between the members of an object never ends at a string. -/
theorem recover_kind_ne_string (hp : Ready p) (problem : Problem) :
    (p.recover ctx problem [.closeBrace, .comma]).kind ≠ .string := by
  have hb : Ready (p.blame ctx problem) := hp.of_stream (by simp)
  have hends : (p.recover ctx problem [.closeBrace, .comma]).kind = .eof ∨
      (p.recover ctx problem [.closeBrace, .comma]).kind ∈ [.closeBrace, .comma] :=
    skipLoop_kind hb (Nat.lt_succ_self _)
  intro hs
  rw [hs] at hends
  simp at hends

/-- How the reading of items and of members ends. -/
def Task.Ends : Task → Cursor → Prop
  | .items _, q => q.kind = .closeBracket ∨ q.kind = .eof
  | .members _ _, q => q.kind = .closeBrace ∨ q.kind = .eof
  | _, _ => True

theorem Reads.ends {task : Task} {out : List Node} (h : Reads ctx task p out q) : task.Ends q := by
  induction h with
  | itemsEnd h | membersEnd h => exact h
  | itemsTrailing _ h | membersTrailing _ h =>
    unfold noteTrailing
    split
    · exact Or.inl (by rw [report_kind]; exact h)
    · exact Or.inl h
  | item _ _ _ _ ih | noItem _ _ _ ih | leftover _ _ _ _ _ ih | member _ _ _ _ _ _ ih
  | noMember _ _ _ _ ih => exact ih
  | _ => trivial

variable (ctx cs) in
/-- A cursor that has just moved on from a token that is no comma. -/
def Past (q : Cursor) : Prop :=
  ∃ r, Watched cs r ∧ r.kind ≠ .eof ∧ r.kind ≠ .comma ∧ q = r.advance ctx

theorem Watched.close_past {closer : TokenKind} {id start : Nat} {problem : Problem}
    (h : Watched cs p) (hends : p.kind = closer ∨ p.kind = .eof) (heof : closer ≠ .eof)
    (hcomma : closer ≠ .comma) (hq : (p.close ctx id start closer problem).2.kind ≠ .eof) :
    Past ctx cs (p.close ctx id start closer problem).2 := by
  unfold Cursor.close at hq ⊢
  split
  · next hk => exact ⟨p, h, hk ▸ heof, hk ▸ hcomma, rfl⟩
  · next hk =>
    rw [if_neg hk] at hq
    exact absurd (hends.resolve_left hk) (by simpa using hq)

/-- A value ends with a token that is no comma. -/
theorem Reads.value_past {v : Node} (h : Reads ctx .value p [v] q) (hp : Watched cs p)
    (hq : q.kind ≠ .eof) : Past ctx cs q := by
  cases h with
  | object hk h =>
    have h₁ := h.watched (hp.fresh.advance (by rw [fresh_kind, hk]; simp))
    exact h₁.close_past h.ends (by simp) (by simp) hq
  | array hk h =>
    have h₁ := h.watched (hp.fresh.advance (by rw [fresh_kind, hk]; simp))
    exact h₁.close_past h.ends (by simp) (by simp) hq
  | @atom _ _ r ha =>
    obtain ⟨hr, hv⟩ := hp.atom? ha
    refine ⟨r.fresh.2, hr.fresh, startsValue_ne_eof hv, fun hk => ?_, rfl⟩
    rw [fresh_kind] at hk
    rw [hk] at hv
    cases hv

variable (ctx) in
/-- A string that comes right after the property `m`: no comma is before it, and once the comma is
    missed there is told what would be told at a repeated key. -/
def RightAfter (cs : Text) (m : Node) (p : Cursor) : Prop :=
  p.kind = .string → ∃ t, Behind cs t p ∧ t.kind ≠ .comma ∧
    ⟨.atRepeatedKey m t p.current, p.current.span⟩ ∈ (p.blame ctx .commaExpected).errors

/-- A fault of the string is told whatever comes before. -/
theorem Watched.rightAfter {m : Node} (h : Watched cs p) (hb : Behind cs t p) (ht : t.kind ≠ .comma)
    (hm : p.current.fault = none → ⟨if m.value?.isNone then .colonExpected else .commaExpected,
      p.current.span⟩ ∈ (p.blame ctx .commaExpected).errors) : RightAfter ctx cs m p := by
  intro _
  refine ⟨t, hb, ht, ?_⟩
  cases hf : p.current.fault with
  | none =>
    rw [Problem.atRepeatedKey_other m hf ht]
    exact hm hf
  | some fault =>
    rw [Problem.atRepeatedKey_fault m t hf]
    exact (goes_blame ctx p .commaExpected).grows.subset (h.settled.faulty fault hf)

/-- Nothing but a fault is told at the token after a key. -/
theorem Watched.passKey_clear (h : Watched cs p) (hk : p.kind ≠ .eof) (rep : Bool) :
    Clear (p.passKey ctx rep) := by
  have hclear : Clear (p.fresh.2.fresh.2.advance ctx) := (h.fresh.fresh.drawn hk).clear
  unfold Cursor.passKey
  dsimp only
  split
  · intro _ hl
    rw [report_lastProblem, report_start] at hl
    have h₁ := h.toOn.start_lt_stop hk
    have h₂ : p.stop ≤ (p.fresh.2.fresh.2.advance ctx).start :=
      h.fresh.fresh.toOn.stop_le_advance hk
    have h₃ : p.start = (p.fresh.2.fresh.2.advance ctx).start := Option.some.inj hl
    omega
  · exact hclear

/-- The key is the token before the one after it. -/
theorem Watched.behind_passKey (h : Watched cs p) (hk : p.kind ≠ .eof) (rep : Bool) :
    Behind cs p.current (p.passKey ctx rep) := by
  have hbehind : Behind cs p.current (p.fresh.2.fresh.2.advance ctx) :=
    h.fresh.fresh.behind_advance hk
  unfold Cursor.passKey
  dsimp only
  split
  · exact hbehind.of_stream (report_stream ..)
  · exact hbehind

/-- **A string that comes right after a property.**  After a key alone its colon was missed, and
    after a value nothing was told yet. -/
theorem Reads.rightAfter {key : Text} {rep : Bool} {n : Node}
    (h : Reads ctx (.property key rep) p [n] q) (hp : Watched cs p) (hcomma : p.kind ≠ .comma) :
    RightAfter ctx cs n q := by
  cases h with
  | nextLine hk hn =>
    have hr : Watched cs (p.passKey ctx rep) := hp.passKey hk rep
    have hcolon : (p.passKey ctx rep).passColon ctx =
        (p.passKey ctx rep).blame ctx .colonExpected := by
      rw [passColon, if_neg hn.1]
    have hne : (p.passKey ctx rep).kind ≠ .eof := by rw [hn.2.1]; simp
    rw [hcolon]
    refine (hr.blame _).rightAfter ((hp.behind_passKey hk rep).of_stream (blame_stream ..))
      hcomma fun hf => ?_
    rw [blame_current] at hf ⊢
    refine (goes_blame ctx _ .commaExpected).grows.subset ?_
    exact hr.mem_blame hne (hp.passKey_clear hk rep hf) .colonExpected
  | valued hk _ hv =>
    intro hs
    have hne : q.kind ≠ .eof := by rw [hs]; simp
    obtain ⟨r, hr, hrk, hrc, rfl⟩ := hv.value_past (hp.passKey hk rep).passColon hne
    refine (hr.advance hrk).rightAfter (hr.behind_advance hrk) hrc (fun hf => ?_) hs
    exact (hr.advance hrk).mem_blame hne ((hr.drawn hrk).clear hf) .commaExpected
  | valueless hk _ hv =>
    intro hs
    unfold Cursor.passNoValue at hs
    split at hs
    · next hu => cases hs.symm.trans hu
    · exact absurd hs (recover_kind_ne_string (hp.passKey hk rep).passColon.toReady _)

/-! ## Repeated keys -/

variable (ctx) in
/-- Where a key in double quotes that is repeated is passed, what is to be told at it is. -/
def KeyTold (cs : Text) (m : Node) (p : Cursor) : Prop :=
  p.kind = .string → ∃ t, Behind cs t p ∧
    ⟨.atRepeatedKey m t p.current, p.current.span⟩ ∈ (p.passKey ctx true).errors

/-- After a comma the key is told to be repeated. -/
theorem Watched.keyTold_comma (h : Watched cs p) (hk : p.kind = .comma) (b : Bool)
    (problem : Problem) (m : Node) : KeyTold ctx cs m (p.separate ctx b problem) := by
  obtain ⟨r, hr, hrk, hsep⟩ : ∃ r, Watched cs r ∧ r.kind = .comma ∧
      p.separate ctx b problem = r.advance ctx := by
    rw [Cursor.separate, if_pos hk]
    split
    · exact ⟨p, h, hk, rfl⟩
    · exact ⟨_, h.blame problem, by rwa [blame_kind], rfl⟩
  have hre : r.kind ≠ .eof := by rw [hrk]; simp
  rw [hsep]
  intro hs
  have hq : Watched cs (r.advance ctx) := hr.advance hre
  have hqe : (r.advance ctx).kind ≠ .eof := by rw [hs]; simp
  refine ⟨r.current, hr.behind_advance hre, ?_⟩
  cases hf : (r.advance ctx).current.fault with
  | none =>
    rw [Problem.atRepeatedKey_comma m hf hrk]
    exact mem_report_errors (hq.fresh.fresh.advance_lastProblem hqe ((hr.drawn hre).clear hf))
  | some fault =>
    rw [Problem.atRepeatedKey_fault m _ hf]
    exact (goes_passKey ctx _ hqe true).grows.subset (hq.settled.faulty fault hf)

/-- Right after a property something else was told at the key. -/
theorem RightAfter.keyTold {m : Node} (h : RightAfter ctx cs m p) (hp : p.kind = .string)
    (problem : Problem) : KeyTold ctx cs m (p.separate ctx true problem) := by
  have hsep : p.separate ctx true problem = p.blame ctx .commaExpected := by
    rw [Cursor.separate, if_neg (by rw [hp]; simp), if_pos rfl]
  rw [hsep]
  intro hs
  obtain ⟨t, hb, -, htold⟩ := h hp
  refine ⟨t, hb.of_stream (by simp), ?_⟩
  rw [blame_current]
  exact (goes_passKey ctx _ (by rw [hs]; simp) true).grows.subset htold

end Cursor

namespace Node

/-- The repeated key of `n`, if it is in double quotes, is told, where `m` is the property before. -/
def Told (cs : Text) (es : List SyntaxError) (m n : Node) : Prop :=
  ∀ key ∈ n.key?, cs.StartsQuoted key.span → ∃ t u, cs.tokenBefore? key.span.start = some t ∧
    u ∈ Token.scan cs ∧ u.span = key.span ∧ ⟨.atRepeatedKey m t u, key.span⟩ ∈ es

/-- The keys of properties that occur before are told, where `seen` are the keys so far and `prev`
    is the property before. -/
def TellsFrom (cs : Text) (es : List SyntaxError) :
    List (Option String) → Option Node → List Node → Prop
  | _, _, [] => True
  | seen, prev, n :: ns =>
    (n.keyText? ∈ seen → ∀ m ∈ prev, Told cs es m n) ∧
      TellsFrom cs es (n.keyText? :: seen) (some n) ns

/-- The keys of an object that occur before among its keys are told. -/
def Tells (cs : Text) (es : List SyntaxError) : Node → Prop
  | object _ ns => TellsFrom cs es [] none ns
  | _ => True

variable {cs : Text} {es es' : List SyntaxError} {m n : Node} {ns : List Node}

theorem Told.mono (h : Told cs es m n) (he : es ⊆ es') : Told cs es' m n := by
  intro key hk hq
  obtain ⟨t, u, ht, hu, hspan, hmem⟩ := h key hk hq
  exact ⟨t, u, ht, hu, hspan, he hmem⟩

theorem TellsFrom.mono {seen : List (Option String)} {prev : Option Node}
    (h : TellsFrom cs es seen prev ns) (he : es ⊆ es') : TellsFrom cs es' seen prev ns := by
  induction ns generalizing seen prev with
  | nil => trivial
  | cons n ns ih => exact ⟨fun hn m hm => (h.1 hn m hm).mono he, ih h.2⟩

theorem Tells.mono (h : n.Tells cs es) (he : es ⊆ es') : n.Tells cs es' := by
  cases n with
  | object mark ns => exact TellsFrom.mono h he
  | _ => trivial

/-- By induction on the properties before the last two. -/
theorem TellsFrom.told {seen : List (Option String)} {prev : Option Node} {before after : List Node}
    (h : TellsFrom cs es seen prev (before ++ m :: n :: after))
    (hn : n.keyText? ∈ seen ∨ ∃ m' ∈ before ++ [m], m'.keyText? = n.keyText?) : Told cs es m n := by
  induction before generalizing seen prev with
  | nil =>
    obtain ⟨-, hnext, -⟩ := h
    refine hnext (List.mem_cons.2 ?_) m rfl
    rcases hn with hn | ⟨m', hm', hkey⟩
    · exact Or.inr hn
    · exact Or.inl (by rw [← hkey, List.mem_singleton.1 hm'])
  | cons x before ih =>
    refine ih h.2 ?_
    rcases hn with hn | ⟨m', hm', hkey⟩
    · exact Or.inl (List.mem_cons_of_mem _ hn)
    · rcases List.mem_cons.1 hm' with rfl | hm'
      · exact Or.inl (List.mem_cons.2 (Or.inl hkey.symm))
      · exact Or.inr ⟨m', hm', hkey⟩

end Node

namespace Cursor

variable {ctx : ParseContext} {cs : Text} {p q : Cursor}

/-- The key of a property that was read, and that what was told there stays. -/
theorem Reads.property_key {key : Text} {rep : Bool} {n : Node}
    (h : Reads ctx (.property key rep) p [n] q) (hp : Watched cs p) :
    n.key? = some (p.keyNode key) ∧ p.kind ≠ .eof ∧ (p.passKey ctx rep).errors ⊆ q.errors := by
  cases h with
  | nextLine hk _ => exact ⟨rfl, hk, (goes_passColon ctx _).grows.subset⟩
  | valued hk _ hv =>
    have hr : Ready (p.passKey ctx rep) := (hp.passKey hk rep).toReady
    exact ⟨rfl, hk, ((goes_passColon ctx _).next hr (List.Subset.refl _) hv.moves).grows.subset⟩
  | valueless hk _ hv =>
    have hr : Ready (p.passKey ctx rep) := (hp.passKey hk rep).toReady
    exact ⟨rfl, hk, ((goes_passColon ctx _).next hr (List.Subset.refl _)
      fun _ ha => moves_passNoValue ha).grows.subset⟩

/-- What is told where a key is passed is told at the key of the property. -/
theorem Reads.property_told {key : Text} {m n : Node} (h : Reads ctx (.property key true) p [n] q)
    (hp : Watched cs p) (ht : KeyTold ctx cs m p) : Node.Told cs q.errors m n := by
  obtain ⟨hkey, hk, hgrow⟩ := h.property_key hp
  intro k hk' hquoted
  rw [hkey] at hk'
  cases hk'
  have hspan : (p.keyNode key).span = p.current.span :=
    Mark.span_sub (Nat.sub_pos_of_lt (hp.toOn.start_lt_stop hk))
  rw [hspan] at hquoted ⊢
  have hmem : p.current ∈ Token.scan cs := hp.suffix.subset (List.mem_cons_self ..)
  obtain ⟨t, hb, htold⟩ := ht (Token.kind_of_startsQuoted hmem hk hquoted)
  exact ⟨t, p.current, hb.tokenBefore? hp.toReady, hmem, rfl, hgrow htold⟩

variable (ctx cs) in
/-- What is known where the reading of members begins: without a comma to come no key was read, and
    a string comes right after the property before. -/
def Task.Begins (prev : Option Node) : Task → Cursor → Prop
  | .members seen b, p => (b = false → seen = []) ∧
      (b = true → p.kind = .string → ∃ m, prev = some m ∧ RightAfter ctx cs m p)
  | _, _ => True

variable (cs) in
/-- What is known of the nodes that a task gives. -/
def Task.Tells (es : List SyntaxError) (prev : Option Node) : Task → List Node → Prop
  | .members seen _, ns => Node.TellsFrom cs es (seen.map fun key => some (String.ofList key)) prev ns
  | _, _ => True

theorem begins_of_ne_string {seen : List Text} {prev : Option Node} (h : p.kind ≠ .string) :
    Task.Begins ctx cs prev (.members seen true) p :=
  ⟨fun hb => (by cases hb), fun _ hs => absurd hs h⟩

/-- Before a key stands a comma, or it comes right after the property before. -/
theorem Watched.keyTold {seen : List Text} {b : Bool} {prev : Option Node} {key : Text}
    {p' : Cursor} {m : Node} (h : Watched cs p) (hb : Task.Begins ctx cs prev (.members seen b) p)
    (hnext : p.kind = .comma ∨ b = false ∨ p.kind = .string) (hseen : seen ≠ [])
    (hkey : (p.separate ctx b .propertyExpected).key? ctx = some (key, p')) (hm : m ∈ prev) :
    KeyTold ctx cs m p' := by
  rcases key?_spec hkey with ⟨-, -, rfl⟩ | ⟨hk, -, rfl⟩
  · rcases hnext with hk | rfl | hk
    · exact h.keyTold_comma hk b _ m
    · exact absurd (hb.1 rfl) hseen
    · cases b with
      | false => exact absurd (hb.1 rfl) hseen
      | true =>
        obtain ⟨m', hm', hafter⟩ := hb.2 rfl hk
        cases hm'.symm.trans hm
        exact hafter.keyTold hk _
  · intro hs
    rw [blame_kind, hk] at hs
    cases hs

/-- **Repeated keys are told among the members that are read.** -/
theorem Reads.tells {task : Task} {out : List Node} {prev : Option Node}
    (h : Reads ctx task p out q) (hp : Watched cs p) (hb : task.Begins ctx cs prev p) :
    task.Tells cs q.errors prev out := by
  induction h generalizing prev with
  | membersEnd _ | membersTrailing _ _ => trivial
  | leftover _ _ _ _ _ ih =>
    exact ih (hp.recover _ _) (begins_of_ne_string (recover_kind_ne_string hp.toReady _))
  | @member seen b p key p' n q ns r _ hnext hkey hprop hrest _ ih =>
    have hp' : Watched cs p' := (hp.separate b _).key? hkey
    have hq := hprop.watched hp'
    have htext : n.keyText? = some (String.ofList key) := by
      rw [Node.keyText?, (hprop.property_key hp').1]
      rfl
    have hcomma : p'.kind ≠ .comma := by
      rcases key?_spec hkey with ⟨hk, -, rfl⟩ | ⟨hk, -, rfl⟩
      · rw [hk]; simp
      · rw [blame_kind, hk]; simp
    refine ⟨fun hn m hm => ?_, ?_⟩
    · rw [htext] at hn
      have hmem : key ∈ seen := by
        obtain ⟨k, hk, heq⟩ := List.mem_map.1 hn
        exact String.ofList_injective (Option.some.inj heq) ▸ hk
      rw [List.contains_iff_mem.2 hmem] at hprop
      exact (hprop.property_told hp' (hp.keyTold hb hnext (List.ne_nil_of_mem hmem) hkey hm)).mono
        (hrest.goes hq.toReady).grows.subset
    · rw [htext]
      exact ih hq ⟨fun h => (by cases h), fun _ _ => ⟨n, rfl, hprop.rightAfter hp' hcomma⟩⟩
  | @noMember _ b p _ _ _ _ _ _ ih =>
    have hp' : Watched cs (p.separate ctx b .propertyExpected) := hp.separate b _
    exact ih (hp'.recover _ _) (begins_of_ne_string (recover_kind_ne_string hp'.toReady _))
  | _ => trivial

/-! ## Every object -/

variable (cs) in
/-- All objects among some nodes tell their repeated keys. -/
def AllTell (es : List SyntaxError) (out : List Node) : Prop :=
  ∀ parent, ∀ e ∈ Node.listingOf parent out, e.2.Tells cs es

section
variable {es es' : List SyntaxError} {n : Node} {ns : List Node}

theorem AllTell.mono (h : AllTell cs es ns) (he : es ⊆ es') : AllTell cs es' ns :=
  fun parent e hmem => (h parent e hmem).mono he

theorem allTell_nil : AllTell cs es [] := by
  intro parent e he
  simp [Node.listingOf] at he

theorem AllTell.cons (h : AllTell cs es [n]) (hs : AllTell cs es ns) : AllTell cs es (n :: ns) := by
  intro parent e he
  rw [Node.listingOf_cons, List.mem_append] at he
  rcases he with he | he
  · exact h parent e (by rwa [Node.listingOf_singleton])
  · exact hs parent e he

theorem AllTell.node (h : n.Tells cs es) (hc : AllTell cs es n.children) : AllTell cs es [n] := by
  intro parent e he
  rw [Node.listingOf_singleton, Node.listing_eq] at he
  rcases List.mem_cons.1 he with rfl | he
  · exact h
  · exact hc _ e he

theorem allTell_atom (mark : Mark) (a : Atom) : AllTell cs es [.atom mark a] :=
  .node trivial allTell_nil

end

/-- **Every object that is read tells its repeated keys.** -/
theorem Reads.allTell {task : Task} {out : List Node} (h : Reads ctx task p out q)
    (hp : Watched cs p) : AllTell cs q.errors out := by
  induction h with
  | @object p ns q hk h ih =>
    have h₁ : Watched cs (p.fresh.2.advance ctx) := hp.fresh.advance (by rw [fresh_kind, hk]; simp)
    have hnode : ∀ mark, AllTell cs q.errors [.object mark ns] := fun _ =>
      .node (h.tells h₁ ⟨fun _ => rfl, fun h => (by cases h)⟩) (ih h₁)
    exact (hnode _).mono (moves_close (List.Subset.refl _) _ _ (by simp) _).grows.subset
  | @array p ns q hk h ih =>
    have h₁ : Watched cs (p.fresh.2.advance ctx) := hp.fresh.advance (by rw [fresh_kind, hk]; simp)
    have hnode : ∀ mark, AllTell cs q.errors [.array mark ns] := fun _ => .node trivial (ih h₁)
    exact (hnode _).mono (moves_close (List.Subset.refl _) _ _ (by simp) _).grows.subset
  | atom ha => exact allTell_atom _ _
  | noValue _ | itemsEnd _ | membersEnd _ | itemsTrailing _ _ | membersTrailing _ _ =>
    exact allTell_nil
  | item _ hn hrest ih₁ ih₂ =>
    have hq := hn.watched (hp.separate _ _)
    exact ((ih₁ (hp.separate _ _)).mono (hrest.goes hq.toReady).grows.subset).cons (ih₂ hq)
  | noItem _ _ _ ih => exact ih ((hp.separate _ _).recover _ _)
  | leftover _ _ _ _ _ ih => exact ih (hp.recover _ _)
  | member _ _ hkey hn hrest ih₁ ih₂ =>
    have hp' := (hp.separate _ _).key? hkey
    have hq := hn.watched hp'
    exact ((ih₁ hp').mono (hrest.goes hq.toReady).grows.subset).cons (ih₂ hq)
  | noMember _ _ _ _ ih => exact ih ((hp.separate _ _).recover _ _)
  | nextLine _ _ | valueless _ _ _ => exact .node trivial (allTell_atom _ _)
  | valued hk _ _ ih =>
    exact .node trivial ((allTell_atom _ _).cons (ih (hp.passKey hk _).passColon))

end Cursor

namespace Literal

open Cursor

theorem opening_watched (cs : Text) (allow : Bool) :
    Watched cs (opening (context cs allow) (Token.scan cs)) := by
  have hended := (Token.scans_scan cs).ended
  have hsuffix : (opening (context cs allow) (Token.scan cs)).stream <:+ Token.scan cs := by
    obtain ⟨ds, hstream, -⟩ := opening_stream (context cs allow) hended
    exact ⟨ds, hstream.symm⟩
  exact ⟨opening_on cs allow, hsuffix, (drawn_draw _ hended (Token.scans_scan cs).ordered
    (scan_placed cs) (fun o ho => by cases ho) false).settled⟩

theorem atRepeatedKey_not_shorthand (m : Node) (t u : Token) :
    isShorthandError (Problem.atRepeatedKey m t u).code = false := by
  unfold Problem.atRepeatedKey
  cases u.fault with
  | some fault => cases fault <;> rfl
  | none =>
    dsimp only
    split_ifs <;> rfl

/-- **Repeated keys are told.**  In every object, a key in double quotes that is the key of an
    earlier property as well is told, by an error that is not filtered away: if it has no fault
    inside and a comma stands before it, then that it is repeated. -/
theorem repeated_keys_told (cs : Text) (allow : Bool) {parent : Option Nat} {mark : Mark}
    {before after : List Node} {m n key : Node}
    (h : (parent, .object mark (before ++ m :: n :: after)) ∈ (parse cs allow).arena)
    (hrepeated : ∃ m' ∈ before ++ [m], m'.keyText? = n.keyText?) (hkey : n.key? = some key)
    (hquoted : cs.StartsQuoted key.span) :
    ∃ t u, cs.tokenBefore? key.span.start = some t ∧ u ∈ Token.scan cs ∧ u.span = key.span ∧
      ⟨.atRepeatedKey m t u, key.span⟩ ∈ (parse cs allow).dropShorthandErrors.errors := by
  obtain ⟨out, q, hr, he⟩ := parse_eq cs allow
  have hgrow : q.errors ⊆ (parse cs allow).errors := by
    rw [he]
    exact (moves_closing (List.Subset.refl _) out).grows.subset
  rw [he, arena_ofReading hr] at h
  have htells : Node.Tells cs q.errors (.object mark (before ++ m :: n :: after)) :=
    hr.allTell (opening_watched cs allow) none _ h
  obtain ⟨t, u, ht, hu, hspan, hmem⟩ :=
    Node.TellsFrom.told htells (Or.inr hrepeated) key hkey hquoted
  refine ⟨t, u, ht, hu, hspan, List.mem_filter.2 ⟨hgrow hmem, ?_⟩⟩
  rw [atRepeatedKey_not_shorthand]
  rfl

/-! ### Two members with one name -/

/-- An object with the key `a` twice, and a character before the second. -/
def twice (between : Char) : Text :=
  ['{', '"', 'a', '"', ':', 'n', 'u', 'l', 'l', between, '"', 'a', '"', ':', 'n', 'u', 'l', 'l', '}']

/-- One of its two members. -/
def twiceMember (id offset : Nat) : Node :=
  .property ⟨id, offset, 8⟩ (some (offset + 3))
    (.atom ⟨id + 1, offset, 3⟩ (.string (String.ofList ['a'])))
      (.atom ⟨id + 2, offset + 4, 4⟩ .null)

theorem repeated_keys_told_twice :
    (parse (twice ',') true).root = some (.object ⟨0, 0, 19⟩ [twiceMember 1 1, twiceMember 4 10]) ∧
      ⟨.duplicateKey, ⟨10, 13⟩⟩ ∈ (parse (twice ',') true).dropShorthandErrors.errors := by
  have hroot : (parse (twice ',') true).root =
      some (.object ⟨0, 0, 19⟩ [twiceMember 1 1, twiceMember 4 10]) := by cbv
  have hmem : (none, .object ⟨0, 0, 19⟩ ([] ++ twiceMember 1 1 :: twiceMember 4 10 :: [])) ∈
      (parse (twice ',') true).arena := by
    rw [arena, hroot]
    exact List.mem_cons_self ..
  have hbefore : ∀ t, (twice ',').tokenBefore? 10 = some t → t.kind = .comma := by decide +kernel
  have hwhole : ∀ u ∈ Token.scan (twice ','), u.span = ⟨10, 13⟩ → u.fault = none := by
    decide +kernel
  obtain ⟨t, u, ht, hu, hspan, htold⟩ := repeated_keys_told (twice ',') true hmem
    ⟨_, List.mem_singleton_self _, rfl⟩ rfl ⟨['a', '"'], by decide⟩
  rw [Problem.atRepeatedKey_comma _ (hwhole u hu hspan) (hbefore t ht)] at htold
  exact ⟨hroot, htold⟩

/-- Where the comma before the key is missing, that is told in place of the repetition. -/
theorem repeated_key_without_comma :
    (parse (twice ' ') true).root = some (.object ⟨0, 0, 19⟩ [twiceMember 1 1, twiceMember 4 10]) ∧
      (twiceMember 1 1).keyText? = (twiceMember 4 10).keyText? ∧
      ∃ key, (twiceMember 4 10).key? = some key ∧
        ∀ e ∈ (parse (twice ' ') true).dropShorthandErrors.errors,
          ¬ (e.problem.code = .duplicateKey ∧ e.span = key.span) :=
  ⟨by cbv, rfl, _, rfl, by decide +kernel⟩

end Literal

end AnnotatedJson
