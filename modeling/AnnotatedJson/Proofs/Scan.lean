/-
  What scanning does to a text.

  * `Lexeme.Rule`: the ways in which one token is read; it covers the start of the
    text it is read from (`append`), and at least one character (`source_ne_nil`);
  * `Token.Scans`: the tokens of a text as rules, without a bound on their number;
  * `Token.scans_scan`: `Token.scan` follows the rules.
-/
import Mathlib
import AnnotatedJson.Literal.Scan
import AnnotatedJson.Proofs.Boundary

namespace AnnotatedJson

namespace Lexeme

/-! ## What one token covers -/

theorem string_append (mode : StringMode) (source value : Text) (fault : Option Fault) (cs : Text) :
    (string mode source value fault cs).1.source ++ (string mode source value fault cs).2 =
      source.reverse ++ cs := by
  fun_induction string mode source value fault cs <;> simp_all

theorem length_le_string (mode : StringMode) (source value : Text) (fault : Option Fault)
    (cs : Text) : source.length ≤ (string mode source value fault cs).1.source.length := by
  fun_induction string mode source value fault cs <;> simp_all <;> omega

@[simp] theorem string_kind (mode : StringMode) (source value : Text) (fault : Option Fault)
    (cs : Text) : (string mode source value fault cs).1.kind = .string := by
  fun_induction string mode source value fault cs <;> simp_all

theorem blockComment_append (source cs : Text) :
    (blockComment source cs).1.source ++ (blockComment source cs).2 = source.reverse ++ cs := by
  fun_induction blockComment source cs <;> simp_all [plain]

theorem length_le_blockComment (source cs : Text) :
    source.length ≤ (blockComment source cs).1.source.length := by
  fun_induction blockComment source cs <;> simp_all [plain]
  omega

@[simp] theorem blockComment_kind (source cs : Text) :
    (blockComment source cs).1.kind = .blockComment := by
  fun_induction blockComment source cs <;> simp_all [plain]

theorem blockComment_value (source cs : Text) :
    (blockComment source cs).1.value = (blockComment source cs).1.source := by
  fun_induction blockComment source cs <;> simp_all [plain]

theorem integerPart_append (cs : Text) : (integerPart cs).1 ++ (integerPart cs).2 = cs := by
  unfold integerPart
  split
  · rfl
  · exact List.takeWhile_append_dropWhile

theorem fractionPart_append (cs : Text) : (fractionPart cs).1 ++ (fractionPart cs).2.2 = cs := by
  unfold fractionPart
  split
  · simp [List.takeWhile_append_dropWhile]
  · rfl

theorem exponentSign_append (cs : Text) : (exponentSign cs).1 ++ (exponentSign cs).2 = cs := by
  unfold exponentSign
  split <;> rfl

theorem exponentPart_append (cs : Text) : (exponentPart cs).1 ++ (exponentPart cs).2.2 = cs := by
  unfold exponentPart
  split
  · next c rest =>
    split
    · have h := exponentSign_append rest
      simp only [List.cons_append, List.append_assoc, List.takeWhile_append_dropWhile, h]
    · rfl
  · rfl

theorem number_append (sign cs : Text) : (number sign cs).1.source ++ (number sign cs).2 =
    sign ++ cs := by
  have h1 := integerPart_append cs
  have h2 := fractionPart_append (integerPart cs).2
  have h3 := exponentPart_append (fractionPart (integerPart cs).2).2.2
  simp only [number, plain, List.append_assoc]
  rw [h3, h2, h1]

theorem quotedTail_append (quote : Char) (escaped : Bool) (seen cs : Text) :
    (quotedTail quote escaped seen cs).1 ++ (quotedTail quote escaped seen cs).2 =
      seen.reverse ++ cs := by
  fun_induction quotedTail quote escaped seen cs <;> simp_all

theorem length_le_quotedTail (quote : Char) (escaped : Bool) (seen cs : Text) :
    seen.length ≤ (quotedTail quote escaped seen cs).1.length := by
  fun_induction quotedTail quote escaped seen cs <;> simp_all <;> omega

theorem word_append (c : Char) (cs : Text) : (word c cs).1.source ++ (word c cs).2 = c :: cs := by
  unfold word
  split
  · exact quotedTail_append c false [c] cs
  · simp [plain, List.takeWhile_append_dropWhile]

@[simp] theorem number_kind (sign cs : Text) : (number sign cs).1.kind = .number := rfl

theorem integerPart_ne_nil {cs : Text} (h : cs.head?.any Text.isDigit = true) :
    (integerPart cs).1 ≠ [] := by
  cases cs with
  | nil => cases h
  | cons c cs =>
    have hc : Text.isDigit c = true := h
    unfold integerPart
    split
    · simp
    · simp [hc]

theorem number_source_ne_nil {sign cs : Text} (h : sign ≠ [] ∨ cs.head?.any Text.isDigit) :
    (number sign cs).1.source ≠ [] := by
  simp only [number, plain, List.append_assoc, ne_eq, List.append_eq_nil_iff]
  rintro ⟨h1, h2, -⟩
  exact h.elim (fun h => h h1) (fun h => integerPart_ne_nil h h2)

theorem word_value (c : Char) (cs : Text) : (word c cs).1.value = (word c cs).1.source := by
  unfold word
  split <;> rfl

theorem word_source_ne_nil (c : Char) (cs : Text) : (word c cs).1.source ≠ [] := by
  unfold word
  split
  · have := length_le_quotedTail c false [c] cs
    intro h
    simp only [plain] at h
    rw [h] at this
    simp at this
  · simp [plain]

theorem wordKind_cases (w : Text) : wordKind w = .true ∨ wordKind w = .false ∨ wordKind w = .null ∨
    wordKind w = .unknown := by
  unfold wordKind
  split_ifs <;> simp

theorem word_kind_cases (c : Char) (cs : Text) : (word c cs).1.kind = .true ∨
    (word c cs).1.kind = .false ∨ (word c cs).1.kind = .null ∨ (word c cs).1.kind = .unknown := by
  unfold word
  split
  · simp [plain]
  · exact wordKind_cases _

theorem single?_kind {c : Char} {k : TokenKind} (h : single? c = some k) :
    k ≠ .eof ∧ k ≠ .string ∧ k ≠ .number := by
  unfold single? at h
  split_ifs at h <;> cases h <;> simp

/-- The ways in which the token that starts with `c` is read. -/
inductive Rule (c : Char) (cs : Text) : Lexeme × Text → Prop
  | single {k} : single? c = some k → Rule c cs (plain k [c], cs)
  | string : c = '"' → Rule c cs (string .plain [c] [] none cs)
  | lineComment {rest} : c = '/' → cs = '/' :: rest →
      Rule c cs (plain .lineComment ('/' :: '/' :: rest.takeWhile fun c => !isLineEnd c),
        rest.dropWhile fun c => !isLineEnd c)
  | blockComment {rest} : c = '/' → cs = '*' :: rest → Rule c cs (blockComment ['*', '/'] rest)
  | slash : c = '/' → Rule c cs (plain .unknown ['/'], cs)
  | digits : Text.isDigit c = true → Rule c cs (number [] (c :: cs))
  | minus : c = '-' → cs.head?.any Text.isDigit = true → Rule c cs (number ['-'] cs)
  | word : single? c = none → c ≠ '"' → c ≠ '/' → Text.isDigit c = false → Rule c cs (word c cs)

theorem rule_read (c : Char) (cs : Text) : Rule c cs (read c cs) := by
  unfold read
  split
  · next k hk => exact .single hk
  · next hk =>
    split_ifs with h1 h2 h3 h4
    · exact .string h1
    · split
      · exact .lineComment h2 rfl
      · exact .blockComment h2 rfl
      · exact .slash h2
    · exact .digits h3
    · exact .minus h4.1 h4.2
    · exact .word hk h1 h2 (by simpa using h3)

namespace Rule

variable {c : Char} {cs : Text} {r : Lexeme × Text}

/-- **A token covers the start of the text it is read from.** -/
theorem append (h : Rule c cs r) : r.1.source ++ r.2 = c :: cs := by
  cases h with
  | single _ => rfl
  | string h => exact string_append .plain [c] [] none cs
  | lineComment h h' => simp [plain, h, h', List.takeWhile_append_dropWhile]
  | blockComment h h' => rw [blockComment_append, h, h']; rfl
  | slash h => rw [h]; rfl
  | digits _ => exact number_append [] (c :: cs)
  | minus h _ => rw [number_append, h]; rfl
  | word => exact word_append c cs

/-- **A token covers at least one character.** -/
theorem source_ne_nil (h : Rule c cs r) : r.1.source ≠ [] := by
  cases h with
  | single _ => simp [plain]
  | string _ => exact List.length_pos_iff.1 (length_le_string .plain [c] [] none cs)
  | lineComment _ _ => simp [plain]
  | @blockComment rest _ _ =>
    have := length_le_blockComment ['*', '/'] rest
    exact List.length_pos_iff.1 (Nat.lt_of_lt_of_le (by decide) this)
  | slash _ => simp [plain]
  | digits h => exact number_source_ne_nil (Or.inr h)
  | minus _ _ => exact number_source_ne_nil (Or.inl (by simp))
  | word => exact word_source_ne_nil c cs

/-- Only the content of a string differs from its source text. -/
theorem value_eq (h : Rule c cs r) (hk : r.1.kind ≠ .string) : r.1.value = r.1.source := by
  cases h with
  | string _ => exact absurd (string_kind ..) hk
  | blockComment _ _ => exact blockComment_value ..
  | word => exact word_value c cs
  | _ => rfl

/-- No token that covers characters is the end of input. -/
theorem kind_ne_eof (h : Rule c cs r) : r.1.kind ≠ .eof := by
  cases h with
  | single hk => exact (single?_kind hk).1
  | string _ => simp
  | blockComment _ _ => simp
  | word =>
    rcases word_kind_cases c cs with h | h | h | h <;> rw [h] <;> simp
  | _ => simp [plain]

end Rule

end Lexeme

namespace Token

/-! ## The tokens of a text -/

/-- The end of input after a gap. -/
def endOfInput (seen gap : Text) : Token :=
  ⟨.eof, ⟨Text.bytes (seen ++ gap), Text.bytes (seen ++ gap)⟩, [], none, gap.contains '\n'⟩

/-- A token read after a gap. -/
def ofLexeme (seen gap : Text) (x : Lexeme) : Token :=
  ⟨x.kind, ⟨Text.bytes (seen ++ gap), Text.bytes (seen ++ gap ++ x.source)⟩, x.value, x.fault,
    gap.contains '\n'⟩

/-- The tokens of a text after the text `seen`: gaps and tokens take turns, and a
    gap stands before the end. -/
inductive Scans : Text → Text → List Token → Prop
  | eof {seen gap} : (∀ c ∈ gap, isGap c = true) → Scans seen gap [endOfInput seen gap]
  | token {seen gap c cs ts} : (∀ x ∈ gap, isGap x = true) → isGap c = false →
      Scans (seen ++ gap ++ (Lexeme.read c cs).1.source) (Lexeme.read c cs).2 ts →
      Scans seen (gap ++ c :: cs) (ofLexeme seen gap (Lexeme.read c cs).1 :: ts)

theorem scans_scanFrom (fuel : Nat) (seen cs : Text) (h : cs.length < fuel) :
    Scans seen cs (scanFrom fuel (Text.bytes seen) cs) := by
  induction fuel generalizing seen cs with
  | zero => omega
  | succ fuel ih =>
    have hgap : ∀ x ∈ cs.takeWhile isGap, isGap x = true := fun x hx => List.mem_takeWhile_imp hx
    have hcut : cs.takeWhile isGap ++ cs.dropWhile isGap = cs := List.takeWhile_append_dropWhile
    rw [scanFrom]
    rcases hd : cs.dropWhile isGap with _ | ⟨c, rest⟩
    · rw [hd, List.append_nil] at hcut
      simp only [hcut, ← Text.bytes_append]
      exact .eof (hcut ▸ hgap)
    · have hc : isGap c = false := by
        have := List.head_dropWhile_not (p := isGap) (l := cs) (by rw [hd]; simp)
        simpa [hd] using this
      have hread := (Lexeme.rule_read c rest).append
      have hne := List.length_pos_iff.2 (Lexeme.rule_read c rest).source_ne_nil
      have hlen : (Lexeme.read c rest).2.length < fuel := by
        have h1 := congrArg List.length hread
        have h2 := congrArg List.length hcut
        rw [hd] at h2
        simp only [List.length_append, List.length_cons] at h1 h2
        omega
      have := Scans.token hgap hc (ih (seen ++ cs.takeWhile isGap ++ (Lexeme.read c rest).1.source)
        (Lexeme.read c rest).2 hlen)
      rw [← hd, hcut] at this
      simpa only [ofLexeme, Text.bytes_append] using this

/-- **`scan` follows the rules.** -/
theorem scans_scan (cs : Text) : Scans [] cs (scan cs) :=
  scans_scanFrom (cs.length + 1) [] cs (by omega)

/-- Tokens that end with the only end of input. -/
inductive Ended : List Token → Prop
  | last {t} : t.kind = .eof → Ended [t]
  | cons {t ts} : t.kind ≠ .eof → Ended ts → Ended (t :: ts)

theorem Ended.tail {t : Token} {ts : List Token} (h : Ended (t :: ts)) (ht : t.kind ≠ .eof) :
    Ended ts := by
  cases h with
  | last h => exact absurd h ht
  | cons _ h => exact h

/-- Nothing follows the end of input. -/
theorem Ended.eq_nil {t : Token} {ts : List Token} (h : Ended (t :: ts)) (ht : t.kind = .eof) :
    ts = [] := by
  cases h with
  | last _ => rfl
  | cons h _ => exact absurd ht h

theorem Scans.ended {seen cs : Text} {ts : List Token} (h : Scans seen cs ts) : Ended ts := by
  induction h with
  | eof _ => exact .last rfl
  | token _ _ _ ih => exact .cons (Lexeme.rule_read _ _).kind_ne_eof ih

end Token

end AnnotatedJson
