/-
  Printed values, read again.

  * `Lexeme.Legible`: a token is found again where it was printed; `legible_quoted`,
    `legible_decimal` and `legible_word` are the three that take an argument;
  * `Json.lexemes`: the tokens of a printed value, and `Json.scans_text`: scanning its
    text finds them;
  * `Cursor.Facing`: a cursor before printed tokens, and `Facing.value`: they are parsed
    into the value;
  * `Literal.parse_text` puts these together: parsing undoes printing.
-/
import Mathlib
import AnnotatedJson.Json.Printer
import AnnotatedJson.Proofs.Content
import AnnotatedJson.Proofs.Forward
import AnnotatedJson.Proofs.Masking
import AnnotatedJson.Proofs.Places
import AnnotatedJson.Proofs.Shorthand

namespace AnnotatedJson

/-- The control characters that the printer leaves as they are. -/
def Text.isRawControl (c : Char) : Bool := 0x7F ≤ c.toNat && c.toNat ≤ 0x9F

namespace Lexeme

/-! ## Legible tokens -/

/-- The token is read again where it is followed by `rest`. -/
def Legible (x : Lexeme) (rest : Text) : Prop :=
  ∃ c cs, x.source ++ rest = c :: cs ∧ Token.isGap c = false ∧ read c cs = (x, rest)

/-- Where a value may end: before a comma, a closing bracket or brace, or the end of the text. -/
def Closes (rest : Text) : Prop := ∀ c ∈ rest.head?, c = ',' ∨ c = ']' ∨ c = '}'

theorem legible_single {c : Char} {kind : TokenKind} (h : single? c = some kind)
    (hg : Token.isGap c = false) (rest : Text) : Legible (plain kind [c]) rest :=
  ⟨c, rest, rfl, hg, by simp [read, h]⟩

/-! ### Words -/

theorem cut_word {word rest : Text} (hw : ∀ c ∈ word, isWordChar c = true) (hr : Closes rest) :
    (word ++ rest).takeWhile isWordChar = word ∧ (word ++ rest).dropWhile isWordChar = rest := by
  rw [List.takeWhile_append_of_pos hw, List.dropWhile_append_of_pos hw]
  cases rest with
  | nil => simp
  | cons c rest =>
    have hc : isWordChar c = false := by
      rcases hr c rfl with rfl | rfl | rfl <;> decide
    simp [hc]

theorem legible_word {c : Char} {word rest : Text} (hs : single? c = none)
    (hc : c ≠ '"' ∧ c ≠ '/' ∧ c ≠ '-' ∧ c ≠ '\'' ∧ c ≠ '`') (hd : Text.isDigit c = false)
    (hg : Token.isGap c = false) (hw : word.all isWordChar = true) (hr : Closes rest) :
    Legible (plain (wordKind (c :: word)) (c :: word)) rest := by
  obtain ⟨h1, h2, h3, h4, h5⟩ := hc
  obtain ⟨ht, hdrop⟩ := cut_word (List.all_eq_true.1 hw) hr
  refine ⟨c, word ++ rest, rfl, hg, ?_⟩
  simp [read, hs, h1, h2, h3, hd, Lexeme.word, h4, h5, ht, hdrop]

/-! ### Numbers -/

theorem head_toDigits {n : Nat} (h : 0 < n) : (Nat.toDigits 10 n).head? ≠ some '0' := by
  induction n using Nat.strongRecOn with
  | ind n ih =>
    rcases Nat.lt_or_ge n 10 with hn | hn
    · rw [Nat.toDigits_of_lt_base hn]
      interval_cases n <;> decide
    · rw [Nat.toDigits_of_base_le (by omega) hn, List.head?_append_of_ne_nil _ Nat.toDigits_ne_nil]
      exact ih (n / 10) (by omega) (by omega)

theorem Closes.noDigit {rest : Text} (h : Closes rest) : Text.NoDigit rest := by
  intro c hc
  rcases h c hc with rfl | rfl | rfl <;> decide

/-- A leading zero stands alone, and no other number has one. -/
theorem integerPart_toDigits (n : Nat) {rest : Text} (h : Text.NoDigit rest) :
    integerPart (Nat.toDigits 10 n ++ rest) = (Nat.toDigits 10 n, rest) := by
  rcases Nat.eq_zero_or_pos n with rfl | hn
  · simp [integerPart]
  · have hcut : integerPart (Nat.toDigits 10 n ++ rest) =
        ((Nat.toDigits 10 n ++ rest).takeWhile Text.isDigit,
          (Nat.toDigits 10 n ++ rest).dropWhile Text.isDigit) := by
      unfold integerPart
      split
      · next tail heq =>
        refine absurd ?_ (head_toDigits hn)
        rw [← List.head?_append_of_ne_nil _ Nat.toDigits_ne_nil, heq]
        rfl
      · rfl
    rw [hcut, Text.takeWhile_digits (Text.isDigit_toDigits n) h,
      Text.dropWhile_digits (Text.isDigit_toDigits n) h]

theorem number_toDigits (sign : Text) (n : Nat) {rest : Text} (h : Closes rest) :
    number sign (Nat.toDigits 10 n ++ rest) = (plain .number (sign ++ Nat.toDigits 10 n), rest) := by
  have hf : fractionPart rest = ([], false, rest) := by
    unfold fractionPart
    split
    · next tail => rcases h '.' rfl with h | h | h <;> cases h
    · rfl
  have he : exponentPart rest = ([], false, rest) := by
    unfold exponentPart
    split
    · next c tail =>
      rcases h c rfl with rfl | rfl | rfl <;> rfl
    · rfl
  simp [number, integerPart_toDigits n h.noDigit, hf, he, plain]

theorem single?_digit {c : Char} (h : Text.isDigit c = true) : single? c = none := by
  unfold single?
  split_ifs <;> subst_vars <;> first | rfl | (revert h; decide)

theorem isGap_digit {c : Char} (h : Text.isDigit c = true) : Token.isGap c = false := by
  simp only [Text.isDigit, Bool.and_eq_true, decide_eq_true_eq, Char.le_def,
    UInt32.le_iff_toNat_le] at h
  have h₁ : 48 ≤ c.toNat := h.1
  have h₂ : c.toNat ≤ 57 := h.2
  simp only [Token.isGap, Text.isBlank, Bool.or_eq_false_iff, Bool.and_eq_false_iff,
    decide_eq_false_iff_not, beq_eq_false_iff_ne]
  omega

theorem read_digit {c : Char} (h : Text.isDigit c = true) (cs : Text) :
    read c cs = number [] (c :: cs) := by
  have hne : c ≠ '"' ∧ c ≠ '/' := by
    constructor <;> rintro rfl <;> revert h <;> decide
  simp [read, single?_digit h, hne, h]

theorem read_minus {cs : Text} (h : cs.head?.any Text.isDigit = true) :
    read '-' cs = number ['-'] cs := by
  have hs : single? '-' = none := by decide
  have hd : Text.isDigit '-' = false := by decide
  simp only [read, hs, hd, h, Char.reduceEq, if_false, and_self, if_true, Bool.false_eq_true]

theorem legible_decimal (n : Int) {rest : Text} (h : Closes rest) :
    Legible (plain .number (Text.decimal n)) rest := by
  obtain ⟨d, ds, hds⟩ := List.exists_cons_of_ne_nil (Nat.toDigits_ne_nil (n := n.natAbs) (b := 10))
  have hd : Text.isDigit d = true := Text.isDigit_toDigits n.natAbs d (hds ▸ List.mem_cons_self ..)
  unfold Text.decimal
  split
  · refine ⟨'-', Nat.toDigits 10 n.natAbs ++ rest, rfl, by decide, ?_⟩
    rw [read_minus (by simp [hds, hd])]
    exact number_toDigits ['-'] n.natAbs h
  · refine ⟨d, ds ++ rest, by simp [plain, hds], isGap_digit hd, ?_⟩
    rw [read_digit hd, ← List.cons_append, ← hds]
    exact number_toDigits [] n.natAbs h

/-! ### Strings -/

/-- The fault of a printed string: the characters that are not escaped may be faults. -/
def rawFault (s : Text) : Option Fault :=
  if s.any Text.isRawControl then some .invalidCharacter else none

/-- A printed string. -/
def quoted (s : Text) : Lexeme := ⟨.string, Json.quote s, s, rawFault s⟩

theorem hexValue?_hexDigit {n : Nat} (h : n < 16) : Text.hexValue? (Text.hexDigit n) = some n := by
  revert n
  decide

theorem hexCode?_escaped {c : Char} (h : c.toNat < 0x20) (cs : Text) :
    Text.hexCode? ('0' :: '0' :: Text.hexDigit (c.toNat / 16) :: Text.hexDigit (c.toNat % 16) :: cs) =
      some c.toNat := by
  have hzero : Text.hexValue? '0' = some 0 := by decide
  simp only [Text.hexCode?, hzero, hexValue?_hexDigit (show c.toNat / 16 < 16 by omega),
    hexValue?_hexDigit (show c.toNat % 16 < 16 by omega), Option.bind_eq_bind, Option.bind_some,
    Option.some.injEq]
  omega

/-- A character is printed as an escape of one letter, as a Unicode escape, or as it is. -/
theorem escapeChar_cases (c : Char) :
    (∃ e, (e, c) ∈ escapes ∧ Json.escapeChar c = ['\\', e] ∧ Text.isRawControl c = false) ∨
    (c.toNat < 0x20 ∧ Json.escapeChar c = ['\\', 'u', '0', '0', Text.hexDigit (c.toNat / 16),
      Text.hexDigit (c.toNat % 16)]) ∨
    (0x20 ≤ c.toNat ∧ c ≠ '"' ∧ c ≠ '\\' ∧ Json.escapeChar c = [c]) := by
  have hcode : ∀ {n}, c.toNat = n → c = Char.ofNat n := fun hn => hn ▸ (Char.ofNat_toNat c).symm
  unfold Json.escapeChar
  split_ifs with h1 h2 h3 h4 h5 h6 h7 h8
  · exact Or.inl ⟨'"', by subst h1; decide, rfl, by subst h1; decide⟩
  · exact Or.inl ⟨'\\', by subst h2; decide, rfl, by subst h2; decide⟩
  · exact Or.inl ⟨'n', by subst h3; decide, rfl, by subst h3; decide⟩
  · exact Or.inl ⟨'r', by subst h4; decide, rfl, by subst h4; decide⟩
  · exact Or.inl ⟨'t', by subst h5; decide, rfl, by subst h5; decide⟩
  · exact Or.inl ⟨'b', by rw [hcode h6]; decide, rfl, by rw [hcode h6]; decide⟩
  · exact Or.inl ⟨'f', by rw [hcode h7]; decide, rfl, by rw [hcode h7]; decide⟩
  · exact Or.inr (Or.inl ⟨h8, rfl⟩)
  · exact Or.inr (Or.inr ⟨by omega, h1, h2, rfl⟩)

/-- A printed character is read as itself. -/
theorem string_escapeChar (c : Char) (source value : Text) (fault : Option Fault) (cs : Text) :
    string .plain source value fault (Json.escapeChar c ++ cs) =
      string .plain ((Json.escapeChar c).reverse ++ source) (c :: value)
        (if Text.isRawControl c then some .invalidCharacter else fault) cs := by
  rcases escapeChar_cases c with ⟨e, he, hesc, hraw⟩ | ⟨hlow, hesc⟩ | ⟨hhigh, hquote, hslash, hesc⟩
  · simp [hesc, string_letter _ _ _ _ he, hraw]
  · have hraw : Text.isRawControl c = false := by
      simp only [Text.isRawControl, Bool.and_eq_false_iff, decide_eq_false_iff_not]
      omega
    have hscalar : scalarOf c.toNat = c := by
      rw [scalarOf, if_neg (by omega), Char.ofNat_toNat]
    simp [hesc, string, hexCode?_escaped hlow, hscalar, hraw]
  · have hline : ¬ (c = '\n' ∨ c = '\r') := by
      rintro (rfl | rfl) <;> revert hhigh <;> decide
    have hctrl : (Text.isControl c = true ∧ c ≠ '\t') ↔ Text.isRawControl c = true := by
      have htab : c ≠ '\t' := by
        rintro rfl
        revert hhigh
        decide
      simp [Text.isControl, Text.isRawControl, htab, Nat.not_lt.2 hhigh]
    simp only [hesc, List.cons_append, List.nil_append, string, if_neg hquote, if_neg hslash,
      if_neg hline, hctrl, List.reverse_singleton]
    split <;> rfl

/-- A printed string is read as itself. -/
theorem string_escaped (s source value : Text) (fault : Option Fault) (rest : Text) :
    string .plain source value fault (s.flatMap Json.escapeChar ++ '"' :: rest) =
      (⟨.string, source.reverse ++ s.flatMap Json.escapeChar ++ ['"'], value.reverse ++ s,
        if s.any Text.isRawControl then some .invalidCharacter else fault⟩, rest) := by
  induction s generalizing source value fault with
  | nil => simp [string]
  | cons c s ih =>
    rw [List.flatMap_cons, List.append_assoc, string_escapeChar, ih]
    simp only [List.reverse_append, List.reverse_reverse, List.append_assoc, List.reverse_cons,
      List.cons_append, List.nil_append, List.any_cons]
    by_cases hc : Text.isRawControl c = true <;> simp [hc]

theorem legible_quoted (s rest : Text) : Legible (quoted s) rest := by
  refine ⟨'"', s.flatMap Json.escapeChar ++ '"' :: rest, by simp [quoted, Json.quote], by decide, ?_⟩
  have hread : read '"' (s.flatMap Json.escapeChar ++ '"' :: rest) =
      string .plain ['"'] [] none (s.flatMap Json.escapeChar ++ '"' :: rest) := by
    simp [read, show single? '"' = none by decide]
  rw [hread, string_escaped]
  simp [quoted, Json.quote, rawFault]

/-! ## Legible sequences of tokens -/

/-- Tokens one right after the other, each legible before the next and the last before `rest`. -/
def Readable (rest : Text) : List Lexeme → Prop
  | [] => True
  | x :: xs => Legible x (xs.flatMap source ++ rest) ∧ Readable rest xs

theorem readable_append {rest : Text} {xs ys : List Lexeme} :
    Readable rest (xs ++ ys) ↔ Readable (ys.flatMap source ++ rest) xs ∧ Readable rest ys := by
  induction xs with
  | nil => simp [Readable]
  | cons x xs ih => simp [Readable, ih, and_assoc]

theorem readable_single {c : Char} {kind : TokenKind} {rest : Text} {xs : List Lexeme}
    (h : single? c = some kind ∧ Token.isGap c = false) (hxs : Readable rest xs) :
    Readable rest (plain kind [c] :: xs) :=
  ⟨legible_single h.1 h.2 _, hxs⟩

/-- A key and its colon. -/
theorem readable_key {k rest : Text} {xs : List Lexeme} (h : Readable rest xs) :
    Readable rest (quoted k :: plain .colon [':'] :: xs) :=
  ⟨legible_quoted k _, readable_single (by decide) h⟩

end Lexeme

open Lexeme

/-- A token that shows a lexeme, wherever it stands. -/
def Token.Shows (t : Token) (x : Lexeme) : Prop :=
  t.kind = x.kind ∧ t.value = x.value ∧ t.fault = x.fault

theorem Token.exists_shows {ts : List Token} {xs : List Lexeme} (h : List.Forall₂ Token.Shows ts xs)
    {t : Token} (ht : t ∈ ts) : ∃ x ∈ xs, t.Shows x := by
  induction h with
  | nil => cases ht
  | @cons u x us xs hu _ ih =>
    rcases List.mem_cons.1 ht with rfl | ht
    · exact ⟨x, List.mem_cons_self .., hu⟩
    · obtain ⟨y, hy, hty⟩ := ih ht
      exact ⟨y, List.mem_cons_of_mem _ hy, hty⟩

/-- Scanning finds the tokens again. -/
theorem Token.scans_readable {xs : List Lexeme} (h : Readable [] xs) (seen : Text) :
    ∃ ts, Token.Scans seen (xs.flatMap Lexeme.source) ts ∧
      List.Forall₂ Token.Shows ts (xs ++ [plain .eof []]) := by
  induction xs generalizing seen with
  | nil => exact ⟨_, .eof (by simp), .cons ⟨rfl, rfl, rfl⟩ .nil⟩
  | cons x xs ih =>
    obtain ⟨⟨c, cs, hcs, hgap, hread⟩, h⟩ := h
    obtain ⟨ts, hts, hshow⟩ := ih h (seen ++ [] ++ x.source)
    rw [List.append_nil] at hcs hread
    have htok : Token.Scans seen ([] ++ c :: cs) (Token.ofLexeme seen [] (Lexeme.read c cs).1 :: ts) :=
      .token (by simp) hgap (by rw [hread]; exact hts)
    rw [hread] at htok
    exact ⟨_, by rw [List.flatMap_cons, hcs]; exact htok, .cons ⟨rfl, rfl, rfl⟩ hshow⟩

namespace Json

/-! ## The tokens of a printed value -/

mutual

/-- The tokens of the compact text of a value. -/
def lexemes : Json → List Lexeme
  | .null => [plain .null ['n', 'u', 'l', 'l']]
  | .bool true => [plain .true ['t', 'r', 'u', 'e']]
  | .bool false => [plain .false ['f', 'a', 'l', 's', 'e']]
  | .number n => [plain .number (numberText n)]
  | .string s => [quoted s.toList]
  | .array [] => [plain .openBracket ['['], plain .closeBracket [']']]
  | .array (x :: xs) => plain .openBracket ['['] :: (lexemes x ++ itemLexemes xs)
  | .object [] => [plain .openBrace ['{'], plain .closeBrace ['}']]
  | .object ((k, v) :: ms) =>
    plain .openBrace ['{'] :: quoted k.toList :: plain .colon [':'] :: (lexemes v ++ memberLexemes ms)

/-- The tokens of the items after the first, and the closing bracket. -/
def itemLexemes : List Json → List Lexeme
  | [] => [plain .closeBracket [']']]
  | x :: xs => plain .comma [','] :: (lexemes x ++ itemLexemes xs)

/-- The tokens of the members after the first, and the closing brace. -/
def memberLexemes : List (String × Json) → List Lexeme
  | [] => [plain .closeBrace ['}']]
  | (k, v) :: ms =>
    plain .comma [','] :: quoted k.toList :: plain .colon [':'] :: (lexemes v ++ memberLexemes ms)

end

mutual

theorem flatMap_lexemes : ∀ v : Json, v.lexemes.flatMap Lexeme.source = text v
  | .null | .bool true | .bool false | .array [] | .object [] => by
    simp [lexemes, text, plain]
  | .number n => by simp [lexemes, text, plain]
  | .string s => by simp [lexemes, text, quoted]
  | .array (x :: xs) => by
    simp [lexemes, text, plain, flatMap_lexemes x, flatMap_itemLexemes xs]
  | .object ((k, v) :: ms) => by
    simp [lexemes, text, plain, quoted, flatMap_lexemes v, flatMap_memberLexemes ms]

theorem flatMap_itemLexemes : ∀ xs : List Json, (itemLexemes xs).flatMap Lexeme.source = itemsText xs
  | [] => by simp [itemLexemes, itemsText, plain]
  | x :: xs => by
    simp [itemLexemes, itemsText, plain, flatMap_lexemes x, flatMap_itemLexemes xs]

theorem flatMap_memberLexemes : ∀ ms : List (String × Json),
    (memberLexemes ms).flatMap Lexeme.source = membersText ms
  | [] => by simp [memberLexemes, membersText, plain]
  | (k, v) :: ms => by
    simp [memberLexemes, membersText, plain, quoted, flatMap_lexemes v, flatMap_memberLexemes ms]

end

/-- Where a value is a number, it is an integer that a double holds. -/
def Exact : Json → Prop
  | .number (.int n) => n.natAbs ≤ 2 ^ 53
  | .number (.float _) => False
  | _ => True

instance : DecidablePred Exact := fun v =>
  match v with
  | .number (.int n) => inferInstanceAs (Decidable (n.natAbs ≤ 2 ^ 53))
  | .number (.float _) => inferInstanceAs (Decidable False)
  | .null | .bool _ | .string _ | .array _ | .object _ => inferInstanceAs (Decidable True)

theorem closes_itemLexemes (xs : List Json) (rest : Text) :
    Closes ((itemLexemes xs).flatMap Lexeme.source ++ rest) := by
  cases xs <;> simp [itemLexemes, Closes, plain]

theorem closes_memberLexemes (ms : List (String × Json)) (rest : Text) :
    Closes ((memberLexemes ms).flatMap Lexeme.source ++ rest) := by
  cases ms <;> simp [memberLexemes, Closes, plain]

mutual

/-- The tokens of a printed value are read again. -/
theorem readable_lexemes : ∀ {v : Json} {rest : Text}, (∀ w ∈ v.inner, w.Exact) → Closes rest →
    Readable rest v.lexemes
  | .null, _, _, hr => ⟨legible_word (by decide) (by decide) (by decide) (by decide) rfl hr, trivial⟩
  | .bool true, _, _, hr | .bool false, _, _, hr =>
    ⟨legible_word (by decide) (by decide) (by decide) (by decide) rfl hr, trivial⟩
  | .number (.int n), _, _, hr => ⟨legible_decimal n hr, trivial⟩
  | .number (.float f), _, h, _ => (h _ (self_mem_inner _)).elim
  | .string s, rest, _, _ => ⟨legible_quoted s.toList rest, trivial⟩
  | .array [], _, _, _ | .object [], _, _, _ => by
    simp only [lexemes]
    exact readable_single (by decide) (readable_single (by decide) trivial)
  | .array (x :: xs), rest, h, _ => by
    simp only [inner, innerItems, List.mem_cons, List.mem_append] at h
    have hx := readable_lexemes (fun w hw => h w (Or.inr (Or.inl hw))) (closes_itemLexemes xs rest)
    have hxs : Readable rest (itemLexemes xs) :=
      readable_itemLexemes (fun w hw => h w (Or.inr (Or.inr hw)))
    rw [lexemes]
    exact readable_single (by decide) (readable_append.2 ⟨hx, hxs⟩)
  | .object ((k, v) :: ms), rest, h, _ => by
    simp only [inner, innerMembers, List.mem_cons, List.mem_append] at h
    have hv := readable_lexemes (fun w hw => h w (Or.inr (Or.inl hw))) (closes_memberLexemes ms rest)
    have hms : Readable rest (memberLexemes ms) :=
      readable_memberLexemes (fun w hw => h w (Or.inr (Or.inr hw)))
    rw [lexemes]
    exact readable_single (by decide) (readable_key (readable_append.2 ⟨hv, hms⟩))

theorem readable_itemLexemes : ∀ {xs : List Json} {rest : Text}, (∀ w ∈ innerItems xs, w.Exact) →
    Readable rest (itemLexemes xs)
  | [], rest, _ => by
    rw [itemLexemes]
    exact readable_single (by decide) trivial
  | x :: xs, rest, h => by
    simp only [innerItems, List.mem_append] at h
    have hx := readable_lexemes (fun w hw => h w (Or.inl hw)) (closes_itemLexemes xs rest)
    have hxs : Readable rest (itemLexemes xs) := readable_itemLexemes (fun w hw => h w (Or.inr hw))
    rw [itemLexemes]
    exact readable_single (by decide) (readable_append.2 ⟨hx, hxs⟩)

theorem readable_memberLexemes : ∀ {ms : List (String × Json)} {rest : Text},
    (∀ w ∈ innerMembers ms, w.Exact) → Readable rest (memberLexemes ms)
  | [], rest, _ => by
    rw [memberLexemes]
    exact readable_single (by decide) trivial
  | (k, v) :: ms, rest, h => by
    simp only [innerMembers, List.mem_append] at h
    have hv := readable_lexemes (fun w hw => h w (Or.inl hw)) (closes_memberLexemes ms rest)
    have hms : Readable rest (memberLexemes ms) := readable_memberLexemes (fun w hw => h w (Or.inr hw))
    rw [memberLexemes]
    exact readable_single (by decide) (readable_key (readable_append.2 ⟨hv, hms⟩))

end

/-- Scanning the text of a value finds its tokens and the end. -/
theorem scans_text {v : Json} (h : ∀ w ∈ v.inner, w.Exact) :
    List.Forall₂ Token.Shows (Token.scan (text v)) (v.lexemes ++ [plain .eof []]) := by
  have hread : Readable [] v.lexemes := readable_lexemes h (by simp [Closes])
  obtain ⟨ts, hts, hshow⟩ := Token.scans_readable hread []
  rw [flatMap_lexemes] at hts
  rw [hts.scan_eq]
  exact hshow

/-- The strings and names that a value holds by itself. -/
def texts : Json → List String
  | .string s => [s]
  | v => v.names

mutual

/-- What holds of words, numbers, marks and the printed texts of a value holds of all its tokens. -/
theorem forall_lexemes {P : Lexeme → Prop}
    (hP : ∀ kind source, kind.isComment = false → P (plain kind source)) : ∀ {v : Json},
    (∀ w ∈ v.inner, ∀ s ∈ w.texts, P (quoted s.toList)) → ∀ x ∈ v.lexemes, P x
  | .null, _ | .bool true, _ | .bool false, _ | .number _, _ => by
    simpa [lexemes] using hP _ _ rfl
  | .array [], _ | .object [], _ => by
    simpa [lexemes] using ⟨hP _ _ rfl, hP _ _ rfl⟩
  | .string s, h => by
    simpa [lexemes, inner, texts] using h
  | .array (x :: xs), h => by
    simp only [inner, innerItems, List.mem_cons, List.mem_append] at h
    have hx := forall_lexemes hP (fun w hw => h w (Or.inr (Or.inl hw)))
    have hxs := forall_itemLexemes hP (fun w hw => h w (Or.inr (Or.inr hw)))
    rw [lexemes, List.forall_mem_cons, List.forall_mem_append]
    exact ⟨hP _ _ rfl, hx, hxs⟩
  | .object ((k, v) :: ms), h => by
    simp only [inner, innerMembers, List.mem_cons, List.mem_append] at h
    have hown := h _ (Or.inl rfl)
    have hv := forall_lexemes hP (fun w hw => h w (Or.inr (Or.inl hw)))
    have hms := forall_memberLexemes hP
      (fun m hm => hown _ (List.mem_cons_of_mem _ (List.mem_map_of_mem hm)))
      (fun w hw => h w (Or.inr (Or.inr hw)))
    rw [lexemes, List.forall_mem_cons, List.forall_mem_cons, List.forall_mem_cons,
      List.forall_mem_append]
    exact ⟨hP _ _ rfl, hown k (List.mem_cons_self ..), hP _ _ rfl, hv, hms⟩

theorem forall_itemLexemes {P : Lexeme → Prop}
    (hP : ∀ kind source, kind.isComment = false → P (plain kind source)) : ∀ {xs : List Json},
    (∀ w ∈ innerItems xs, ∀ s ∈ w.texts, P (quoted s.toList)) → ∀ x ∈ itemLexemes xs, P x
  | [], _ => by
    simpa [itemLexemes] using hP _ _ rfl
  | x :: xs, h => by
    simp only [innerItems, List.mem_append] at h
    have hx := forall_lexemes hP (fun w hw => h w (Or.inl hw))
    have hxs := forall_itemLexemes hP (fun w hw => h w (Or.inr hw))
    rw [itemLexemes, List.forall_mem_cons, List.forall_mem_append]
    exact ⟨hP _ _ rfl, hx, hxs⟩

theorem forall_memberLexemes {P : Lexeme → Prop}
    (hP : ∀ kind source, kind.isComment = false → P (plain kind source)) :
    ∀ {ms : List (String × Json)}, (∀ m ∈ ms, P (quoted m.1.toList)) →
    (∀ w ∈ innerMembers ms, ∀ s ∈ w.texts, P (quoted s.toList)) → ∀ x ∈ memberLexemes ms, P x
  | [], _, _ => by
    simpa [memberLexemes] using hP _ _ rfl
  | (k, v) :: ms, hk, h => by
    simp only [innerMembers, List.mem_append] at h
    rw [List.forall_mem_cons] at hk
    have hv := forall_lexemes hP (fun w hw => h w (Or.inl hw))
    have hms := forall_memberLexemes hP hk.2 (fun w hw => h w (Or.inr hw))
    rw [memberLexemes, List.forall_mem_cons, List.forall_mem_cons, List.forall_mem_cons,
      List.forall_mem_append]
    exact ⟨hP _ _ rfl, hk.1, hP _ _ rfl, hv, hms⟩

end

/-- No printed value has a comment. -/
theorem lexemes_noComment (v : Json) : ∀ x ∈ v.lexemes, x.kind.isComment = false :=
  forall_lexemes (fun _ _ h => h) fun _ _ _ _ => rfl

/-- A printed value without raw control characters has no faults. -/
theorem lexemes_noFault {v : Json}
    (h : ∀ w ∈ v.inner, ∀ s ∈ w.texts, ∀ c ∈ s.toList, Text.isRawControl c = false) :
    ∀ x ∈ v.lexemes, x.fault = none := by
  refine forall_lexemes (fun _ _ _ => rfl) fun w hw s hs => ?_
  simpa [quoted, rawFault] using h w hw s hs

theorem head_lexemes (v : Json) : ∃ x xs, v.lexemes = x :: xs ∧ Cursor.startsValue x.kind = true := by
  rcases v with _ | (_ | _) | _ | _ | (_ | _) | (_ | _) <;>
    simp [lexemes, plain, quoted, Cursor.startsValue]

end Json

namespace Cursor

variable {ctx : ParseContext} {all : List Token} {Allowed : Problem → Prop} {p q : Cursor}

/-! ## Reading printed tokens -/

variable (ctx all Allowed) in
/-- A cursor before printed tokens. -/
def Facing (p : Cursor) (xs : List Lexeme) : Prop :=
  ∃ ts, Fair ctx all Allowed p ts ∧ List.Forall₂ Token.Shows ts xs

section
variable {x : Lexeme} {xs tl : List Lexeme}

theorem Facing.kind (h : Facing ctx all Allowed p (x :: xs)) : p.kind = x.kind := by
  obtain ⟨_, h, hs⟩ := h
  cases hs with
  | cons ht _ => exact h.kind.trans ht.1

theorem Facing.value (h : Facing ctx all Allowed p (x :: xs)) : p.current.value = x.value := by
  obtain ⟨_, h, hs⟩ := h
  cases hs with
  | cons ht _ => rw [h.current, ht.2.1]

theorem Facing.fresh (h : Facing ctx all Allowed p xs) : Facing ctx all Allowed p.fresh.2 xs := by
  obtain ⟨ts, h, hs⟩ := h
  exact ⟨ts, h.fresh, hs⟩

theorem Facing.advance (h : Facing ctx all Allowed p (x :: xs)) (hk : x.kind ≠ .eof) :
    Facing ctx all Allowed (p.advance ctx) xs := by
  obtain ⟨_, h, hs⟩ := h
  cases hs with
  | cons ht hs => exact ⟨_, h.advance (ht.1 ▸ hk), hs⟩

theorem Facing.close {closer : TokenKind} (h : Facing ctx all Allowed p (x :: xs))
    (hx : x.kind = closer) (hc : closer ≠ .eof) (id start : Nat) (problem : Problem) :
    Facing ctx all Allowed (p.close ctx id start closer problem).2 xs := by
  obtain ⟨_, h, hs⟩ := h
  cases hs with
  | cons ht hs => exact ⟨_, h.close (ht.1.trans hx) hc id start problem, hs⟩

/-- A value of one token is read. -/
theorem Facing.atom {a : Atom} (h : Facing ctx all Allowed p (x :: xs)) (hx : x.kind ≠ .eof)
    (ha : p.atom? ctx = some (a, p)) :
    ∃ n q, Reads ctx .value p [n] q ∧ Facing ctx all Allowed q xs ∧ n.toJson = Node.atomJson a :=
  ⟨_, _, .atom ha, h.fresh.advance hx, by rw [takeAtom, Node.toJson]⟩

/-- A member with a new name is read if its value is. -/
theorem Facing.member {b : Bool} {p' : Cursor} {seen : List Text} {k : Text} {v : Json}
    (hb : Before ctx p b p') (hnew : k ∉ seen)
    (hp : Facing ctx all Allowed p' (quoted k :: plain .colon [':'] :: xs))
    (hv : ∀ p, Facing ctx all Allowed p xs →
      ∃ n q, Reads ctx .value p [n] q ∧ Facing ctx all Allowed q tl ∧ n.toJson = v) :
    ∃ n q, (∀ ns r, Reads ctx (.members (k :: seen) true) q ns r →
        Reads ctx (.members seen b) p (n :: ns) r) ∧
      Facing ctx all Allowed q tl ∧
      ∀ before ns, Node.membersJson before (n :: ns) =
        Node.membersJson (Json.insert (String.ofList k) v before) ns := by
  have hkey : p'.key? ctx = some (k, p') := by
    rw [Cursor.key?, if_pos (show p'.kind = .string from hp.kind), hp.value]
    rfl
  obtain ⟨_, hfair, hshow⟩ := hp
  obtain ⟨t, us, ht, hus, rfl⟩ := List.forall₂_cons_right_iff.1 hshow
  obtain ⟨c, ts, hc, hs, rfl⟩ := List.forall₂_cons_right_iff.1 hus
  obtain ⟨hcolon, -, hfair'⟩ := hfair.property hc.1
  obtain ⟨n, q, hn, hq, hjson⟩ := hv _ ⟨ts, hfair', hs⟩
  have hkind : p'.kind ≠ .eof := by
    rw [hfair.kind, ht.1]
    exact TokenKind.noConfusion
  refine ⟨_, q, fun ns r hr => hb.member hkey hnew (.valued hkind (fun h => h.1 hcolon) hn) hr, hq, ?_⟩
  intro before ns
  rw [Node.membersJson, hjson]
  rfl

end

theorem unseen_cons {k : String} {ms : List (String × Json)} {seen : List Text}
    (hk : k ∉ ms.map Prod.fst) (h : ∀ m ∈ ms, m.1.toList ∉ seen) :
    ∀ m ∈ ms, m.1.toList ∉ k.toList :: seen := by
  intro m hm hmem
  rcases List.mem_cons.1 hmem with he | hmem
  · exact hk (String.toList_injective he ▸ List.mem_map_of_mem hm)
  · exact h m hm hmem

mutual

/-- **The tokens of a printed value are parsed into the value.** -/
theorem Facing.json : ∀ {v : Json} {p : Cursor} {tl : List Lexeme},
    (∀ w ∈ v.inner, w.Exact ∧ w.names.Nodup) → Facing ctx all Allowed p (v.lexemes ++ tl) →
    ∃ n q, Reads ctx .value p [n] q ∧ Facing ctx all Allowed q tl ∧ n.toJson = v
  | .null, p, tl, _, hp => by
    have hk : p.kind = .null := hp.kind
    have ha : p.atom? ctx = some (.null, p) := by simp only [atom?, hk]
    exact hp.atom (by simp [plain]) ha
  | .bool true, p, tl, _, hp => by
    have hk : p.kind = .true := hp.kind
    have ha : p.atom? ctx = some (.boolean true, p) := by simp only [atom?, hk]
    exact hp.atom (by simp [plain]) ha
  | .bool false, p, tl, _, hp => by
    have hk : p.kind = .false := hp.kind
    have ha : p.atom? ctx = some (.boolean false, p) := by simp only [atom?, hk]
    exact hp.atom (by simp [plain]) ha
  | .number (.int m), p, tl, h, hp => by
    have hk : p.kind = .number := hp.kind
    have hval : p.current.value = Text.decimal m := hp.value
    have ha : p.atom? ctx = some (.number (.ofDecimal (decide (m < 0)) m.natAbs 0)
        (isIntegral (Text.decimal m)), p) := by
      simp only [atom?, hk, hval, readNumber?_decimal]
    obtain ⟨n, q, hn, hq, hjson⟩ := hp.atom (by simp [plain]) ha
    refine ⟨n, q, hn, hq, ?_⟩
    rw [hjson, Node.atomJson, isIntegral_decimal,
      numberJson_decimal (h _ (Json.self_mem_inner _)).1]
  | .number (.float _), _, _, h, _ => (h _ (Json.self_mem_inner _)).1.elim
  | .string s, p, tl, _, hp => by
    have hk : p.kind = .string := hp.kind
    have hval : p.current.value = s.toList := hp.value
    have ha : p.atom? ctx = some (.string s, p) := by
      simp only [atom?, hk, hval, String.ofList_toList]
    exact hp.atom (by simp [quoted]) ha
  | .array [], p, tl, _, hp => by
    have h₁ := hp.fresh.advance (by simp [plain])
    exact ⟨_, _, .array hp.kind (.itemsEnd (Or.inl h₁.kind)), h₁.close rfl (by simp [plain]) _ _ _,
      by rw [Node.toJson, Node.itemsJson]⟩
  | .array (x :: xs), p, tl, h, hp => by
    simp only [Json.inner, Json.innerItems, List.mem_cons, List.mem_append] at h
    rw [Json.lexemes, List.cons_append, List.append_assoc] at hp
    have h₁ := hp.fresh.advance (by simp [plain])
    obtain ⟨n, q, hn, hq, hjson⟩ := Facing.json (fun w hw => h w (Or.inr (Or.inl hw))) h₁
    obtain ⟨ns, r, hns, hr, hjsons⟩ := Facing.items (fun w hw => h w (Or.inr (Or.inr hw))) hq
    obtain ⟨y, ys, hy, hstart⟩ := x.head_lexemes
    rw [hy] at h₁
    refine ⟨_, _, .array hp.kind (Before.first.item ?_ hn hns),
      hr.close rfl (by simp [plain]) _ _ _, ?_⟩
    · rw [h₁.kind]
      exact hstart
    · rw [Node.toJson, Node.itemsJson, hjson, hjsons]
  | .object [], p, tl, _, hp => by
    have h₁ := hp.fresh.advance (by simp [plain])
    exact ⟨_, _, .object hp.kind (.membersEnd (Or.inl h₁.kind)), h₁.close rfl (by simp [plain]) _ _ _,
      by rw [Node.toJson, Node.membersJson]⟩
  | .object ((k, v) :: ms), p, tl, h, hp => by
    simp only [Json.inner, Json.innerMembers, List.mem_cons, List.mem_append] at h
    have hnd : (k :: ms.map Prod.fst).Nodup := (h _ (Or.inl rfl)).2
    rw [Json.lexemes, List.cons_append, List.cons_append, List.cons_append, List.append_assoc] at hp
    have h₁ := hp.fresh.advance (by simp [plain])
    obtain ⟨n, q, hn, hq, hjson⟩ := Facing.member .first List.not_mem_nil h₁ fun p hp =>
      Facing.json (fun w hw => h w (Or.inr (Or.inl hw))) hp
    obtain ⟨hfst, hnd'⟩ := List.nodup_cons.1 hnd
    obtain ⟨ns, r, hns, hr, hjsons⟩ := Facing.members (fun w hw => h w (Or.inr (Or.inr hw))) hnd'
      (unseen_cons hfst fun _ _ => List.not_mem_nil) hq
    refine ⟨_, _, .object hp.kind (hn _ _ hns), hr.close rfl (by simp [plain]) _ _ _, ?_⟩
    rw [Node.toJson, hjson, String.ofList_toList, Json.insert, hjsons [(k, v)] hnd]
    rfl

theorem Facing.items : ∀ {xs : List Json} {p : Cursor} {tl : List Lexeme},
    (∀ w ∈ Json.innerItems xs, w.Exact ∧ w.names.Nodup) →
    Facing ctx all Allowed p (Json.itemLexemes xs ++ tl) →
    ∃ ns q, Reads ctx (.items true) p ns q ∧
      Facing ctx all Allowed q (plain .closeBracket [']'] :: tl) ∧ Node.itemsJson ns = xs
  | [], p, tl, _, hp => by
    rw [Json.itemLexemes] at hp
    exact ⟨[], p, .itemsEnd (Or.inl hp.kind), hp, by rw [Node.itemsJson]⟩
  | x :: xs, p, tl, h, hp => by
    simp only [Json.innerItems, List.mem_append] at h
    rw [Json.itemLexemes, List.cons_append, List.append_assoc] at hp
    have h₁ := hp.advance (by simp [plain])
    obtain ⟨n, q, hn, hq, hjson⟩ := Facing.json (fun w hw => h w (Or.inl hw)) h₁
    obtain ⟨ns, r, hns, hr, hjsons⟩ := Facing.items (fun w hw => h w (Or.inr hw)) hq
    obtain ⟨y, ys, hy, hstart⟩ := x.head_lexemes
    rw [hy] at h₁
    refine ⟨n :: ns, r, (Before.next hp.kind).item ?_ hn hns, hr, ?_⟩
    · rw [h₁.kind]
      exact hstart
    · rw [Node.itemsJson, hjson, hjsons]

theorem Facing.members : ∀ {ms : List (String × Json)} {p : Cursor} {tl : List Lexeme}
    {seen : List Text}, (∀ w ∈ Json.innerMembers ms, w.Exact ∧ w.names.Nodup) →
    (ms.map Prod.fst).Nodup → (∀ m ∈ ms, m.1.toList ∉ seen) →
    Facing ctx all Allowed p (Json.memberLexemes ms ++ tl) →
    ∃ ns q, Reads ctx (.members seen true) p ns q ∧
      Facing ctx all Allowed q (plain .closeBrace ['}'] :: tl) ∧
      ∀ before : List (String × Json), (before.map Prod.fst ++ ms.map Prod.fst).Nodup →
        Node.membersJson before ns = before ++ ms
  | [], p, tl, seen, _, _, _, hp => by
    rw [Json.memberLexemes] at hp
    exact ⟨[], p, .membersEnd (Or.inl hp.kind), hp, fun before _ => by
      rw [Node.membersJson, List.append_nil]⟩
  | (k, v) :: ms, p, tl, seen, h, hnd, hnew, hp => by
    simp only [Json.innerMembers, List.mem_append] at h
    rw [List.forall_mem_cons] at hnew
    obtain ⟨hfst, hnd⟩ := List.nodup_cons.1 hnd
    rw [Json.memberLexemes, List.cons_append, List.cons_append, List.cons_append,
      List.append_assoc] at hp
    have h₁ := hp.advance (by simp [plain])
    obtain ⟨n, q, hn, hq, hjson⟩ := Facing.member (.next hp.kind) hnew.1 h₁ fun p hp =>
      Facing.json (fun w hw => h w (Or.inl hw)) hp
    obtain ⟨ns, r, hns, hr, hjsons⟩ :=
      Facing.members (fun w hw => h w (Or.inr hw)) hnd (unseen_cons hfst hnew.2) hq
    refine ⟨_, r, hn _ _ hns, hr, fun before hb => ?_⟩
    have hk : k ∉ before.map Prod.fst := fun hmem =>
      (List.nodup_append.1 hb).2.2 k hmem k (List.mem_cons_self ..) rfl
    rw [hjson, String.ofList_toList, Shorthand.insert_of_notMem hk, hjsons _ (by simpa using hb),
      List.append_assoc]
    rfl

end

end Cursor

namespace Literal

open Cursor

/-- A printed value is parsed into itself, and its problems are those of its tokens. -/
theorem parse_lexemes {v : Json} (Allowed : Problem → Prop) (h : ∀ w ∈ v.inner, w.Exact)
    (hk : v.Keyed) (allow : Bool)
    (hfault : ∀ x ∈ v.lexemes, ∀ fault, x.fault = some fault → Allowed (.fault fault)) :
    (parse v.text allow).toJson? = some v ∧ ∀ e ∈ (parse v.text allow).errors, Allowed e.problem := by
  have hshow := Json.scans_text h
  have hquiet : ∀ t ∈ Token.scan v.text, t.kind.isComment = false ∧
      ∀ fault, t.fault = some fault → Allowed (.fault fault) := by
    intro t ht
    obtain ⟨x, hx, hkind, -, hf⟩ := Token.exists_shows hshow ht
    rw [hkind, hf]
    rcases List.mem_append.1 hx with hx | hx
    · exact ⟨v.lexemes_noComment x hx, hfault x hx⟩
    · rw [List.mem_singleton.1 hx]
      exact ⟨rfl, fun _ h => by cases h⟩
  have hcalm : ∀ t ∈ Token.scan v.text, Calm (context v.text allow) Allowed t := fun t ht =>
    ⟨(hquiet t ht).2, fun hc => absurd hc (by simp [(hquiet t ht).1])⟩
  have hall : visible (Token.scan v.text) = Token.scan v.text :=
    List.filter_eq_self.2 fun t ht => by simp [(hquiet t ht).1]
  have hopen := opening_calm (Token.scans_scan v.text).ended hcalm
  obtain ⟨n, q, hn, ⟨ts, hq, hend⟩, hjson⟩ := Facing.json (fun w hw => ⟨h w hw, hk w hw⟩)
    ⟨_, hopen, hall ▸ hshow⟩
  obtain ⟨e, us, he, hus, rfl⟩ := List.forall₂_cons_right_iff.1 hend
  cases hus
  rw [parse_of_fair hn hq he.1]
  exact ⟨congrArg some hjson, hq.errors⟩

/-- **Parsing undoes printing.**  A value whose numbers are integers of at most 53 bits is
    parsed from its compact text, whether comments are allowed or not; and no problem is
    found unless a string or a name has one of the control characters that are not escaped. -/
theorem parse_text (v : Json) (hexact : ∀ w ∈ v.inner, w.Exact) (hkeyed : v.Keyed) (allow : Bool) :
    (parse v.text allow).toJson? = some v ∧
      ((∀ w ∈ v.inner, ∀ s ∈ w.texts, ∀ c ∈ s.toList, ¬ (0x7F ≤ c.toNat ∧ c.toNat ≤ 0x9F)) →
        (parse v.text allow).errors = []) := by
  constructor
  · exact (parse_lexemes (fun _ => True) hexact hkeyed allow fun _ _ _ _ => trivial).1
  · intro hraw
    have hclean : ∀ x ∈ v.lexemes, x.fault = none := Json.lexemes_noFault fun w hw s hs c hc => by
      simpa [Text.isRawControl] using hraw w hw s hs c hc
    have hnone := (parse_lexemes (fun _ => False) hexact hkeyed allow fun x hx fault hf => by
      rw [hclean x hx] at hf
      cases hf).2
    exact List.eq_nil_iff_forall_not_mem.2 hnone

/-- A value of every kind. -/
def sampleValue : Json :=
  .object [("a\"b", .array [.null, .bool true, .number (.int (-12)), .string "\n\\"]),
    ("c", .object [("d", .array []), ("e", .object []), ("", .number (.int 9007199254740992))])]

theorem parse_text_sample :
    (parse sampleValue.text false).toJson? = some sampleValue ∧
      (parse sampleValue.text false).errors = [] := by
  have h := parse_text sampleValue (by decide) (by decide) false
  refine ⟨h.1, h.2 ?_⟩
  simp [sampleValue, Json.inner, Json.innerItems, Json.innerMembers, Json.texts, Json.names]

end Literal

end AnnotatedJson
