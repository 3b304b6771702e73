/-
  Integers as constants of schemas.

  A schema keeps an integer as it is.  A literal keeps the nearest double, so a constant fits the number
  that it writes only if the double is the integer.

  * `Schema.constant`: the schema of one integer, and `Schema.ofText?_constant`: it is read from its
    text;
  * `Node.same_numberJson_iff`: the value of an integer of a literal;
  * `Literal.eq_number_of_writes`: a number written as an integer holds the nearest double;
  * `Literal.constant_missed`: 2^53 + 1 does not fit itself;
  * `Literal.integer_constants`: which constants fit an integer of a document.
-/
import Mathlib
import AnnotatedJson.Proofs.Matching
import AnnotatedJson.Proofs.StrictReading

namespace AnnotatedJson

/-! ## Constants -/

namespace Schema

/-- The schema that allows one integer only. -/
def constant (n : Int) : Json := .object [("const", .number (.int n))]

/-- **A schema keeps its constant.** -/
theorem ofText?_constant {n : Int} (hlo : -2 ^ 63 ≤ n) (hhi : n < 2 ^ 64) :
    Json.ofText? (constant n).text = some (constant n) := by
  apply Json.read?_text
  · intro w hw
    simp only [constant, Json.inner, Json.innerMembers, List.append_nil, List.mem_cons,
      List.not_mem_nil, or_false] at hw
    rcases hw with rfl | rfl
    · trivial
    · exact ⟨hlo, hhi⟩
  · simp [constant, Json.Keyed, Json.inner, Json.innerMembers, Json.names]
  · simp [constant, Json.height, Json.heightMembers, Json.nestingLimit]

theorem fits_constant (root : Json) (n : Int) (node : Node) :
    fits root (constant n) node = Json.same (.number (.int n)) node.toJson := by
  have hresolve : resolveValue root (constant n) = constant n := by
    simp [resolveValue, maxDepth, chase?, follow?, constant, Json.member?, Json.lookup]
  rw [fits, hresolve]
  simp [constant, fitsValue, Json.member?, Json.lookup]
  rfl

end Schema

/-! ## Integers of literals -/

namespace Binary64

/-- **An integer of 64 bits is read as the nearest double.** -/
theorem toInt?_ofDecimal_int {m : Int} (h : m.natAbs ≤ 2 ^ 63) :
    ∃ r, (ofDecimal (decide (m < 0)) m.natAbs 0).toInt? = some r ∧ Nearest (unit m.natAbs) m r := by
  obtain ⟨v, hv, hnear⟩ := toInt?_ofDecimal_nearest (decide (m < 0)) (h.trans (by norm_num))
  by_cases hneg : m < 0
  · refine ⟨-v, by simpa [hneg] using hv, ?_⟩
    have hm : m = -(m.natAbs : Int) := by omega
    rw [hm, Int.natAbs_neg, Int.natAbs_natCast]
    exact hnear.neg
  · refine ⟨v, by simpa [hneg] using hv, ?_⟩
    have hm : (m.natAbs : Int) = m := by omega
    rwa [hm] at hnear

/-- An integer of at most 53 bits is a double. -/
theorem unit_dvd {m : Int} (h : m.natAbs ≤ 2 ^ 53) : (unit m.natAbs : Int) ∣ m := by
  rcases h.lt_or_eq with hlt | heq
  · rw [unit_of_lt hlt]
    exact one_dvd m
  · have hunit : unit m.natAbs = 2 := by rw [heq]; decide
    rw [hunit]
    omega

end Binary64

namespace Node

open Binary64

/-- The number is written as the integer `m`. -/
def Writes (cs : Text) (m : Int) (n : Node) : Prop :=
  n.typeName = "number" ∧ Text.slice? cs n.span = some (Text.decimal m)

/-- **The integers that are the value of an integer of 64 bits**: the one that it is rounded to, unless
    that is out of range. -/
theorem same_numberJson_iff {m : Int} (h : m.natAbs ≤ 2 ^ 63) (n : Int) :
    Json.same (.number (.int n)) (numberJson (ofDecimal (decide (m < 0)) m.natAbs 0) true) = true ↔
      n.natAbs < 2 ^ 63 ∧ Nearest (unit m.natAbs) m n := by
  obtain ⟨r, hr, hnear⟩ := toInt?_ofDecimal_int h
  simp only [numberJson, hr]
  constructor
  · intro hsame
    split at hsame
    · next hlt =>
      have hn : n = r := by simpa [Json.same, Number.same] using hsame
      rw [hn]
      exact ⟨hlt, hnear⟩
    · simp [Json.same, Number.same] at hsame
  · rintro ⟨hlt, hnear'⟩
    obtain rfl := hnear.unique (unit_pos _) hnear'
    have hvalue : (if r.natAbs < 0x8000000000000000 then Json.number (.int r)
        else .number (.float (ofDecimal (decide (m < 0)) m.natAbs 0))) = .number (.int r) := if_pos hlt
    rw [hvalue]
    simp [Json.same, Number.same]

end Node

namespace Literal

open Text Binary64

variable {cs : Text} {allow : Bool} {m : Int}

/-- **A number written as an integer holds the nearest double.** -/
theorem eq_number_of_writes {e : Option Nat × Node} (he : e ∈ (parse cs allow).arena)
    (h : e.2.Writes cs m) :
    ∃ mark, e.2 = .atom mark (.number (ofDecimal (decide (m < 0)) m.natAbs 0) true) := by
  obtain ⟨htype, hslice⟩ := h
  obtain ⟨mark, x, integral, hn⟩ : ∃ mark x integral, e.2 = .atom mark (.number x integral) := by
    cases hn : e.2 with
    | atom mark a => cases a <;> simp_all [Node.typeName]
    | array | object | property | hole => simp [hn, Node.typeName] at htype
  refine ⟨mark, ?_⟩
  have horigin := parse_origin cs allow e he (by rw [hn]; rfl)
  rw [hn] at hslice horigin ⊢
  cases horigin with
  | key hm => cases hm
  | @value p' q' hread hready hsuffix =>
    have hscan : p'.current ∈ Token.scan cs :=
      opening_subset cs allow (hsuffix.subset List.mem_cons_self)
    obtain ⟨hk, rfl, rfl⟩ := hread.number
    have hspan : mark.span = p'.current.span := hread.atom_span (scan_placed cs _ hscan).start_le_stop
    have hvalue : p'.current.value = decimal m :=
      Token.value_eq_source hscan (by rw [← Cursor.kind, hk]; simp) (by rw [← Cursor.kind, hk]; simp)
        (hspan ▸ hslice)
    rw [hvalue, Cursor.readNumber?_decimal, Cursor.isIntegral_decimal, Option.getD_some]

/-- **A constant fits an integer iff the integer is rounded to it.** -/
theorem fits_constant_iff {e : Option Nat × Node} (he : e ∈ (parse cs allow).arena)
    (h : e.2.Writes cs m) (hm : m.natAbs ≤ 2 ^ 63) (root : Json) (n : Int) :
    Schema.fits root (Schema.constant n) e.2 = true ↔
      n.natAbs < 2 ^ 63 ∧ Nearest (unit m.natAbs) m n := by
  obtain ⟨mark, hn⟩ := eq_number_of_writes he h
  rw [Schema.fits_constant, hn]
  exact Node.same_numberJson_iff hm n

theorem scan_decimal (m : Int) :
    Token.scan (decimal m) = [Token.ofLexeme [] [] (Lexeme.plain .number (decimal m)),
      Token.endOfInput (decimal m) []] := by
  have hcloses : Lexeme.Closes [] := by simp [Lexeme.Closes]
  obtain ⟨c, cs, hcs, hgap, hread⟩ := Lexeme.legible_decimal m hcloses
  have hcs' : decimal m = c :: cs := by simpa [Lexeme.plain] using hcs
  have hend : Token.Scans ([] ++ [] ++ (Lexeme.read c cs).1.source) (Lexeme.read c cs).2
      [Token.endOfInput (decimal m) []] := by
    rw [hread]
    exact .eof (by simp)
  have hscans := Token.Scans.token (by simp) hgap hend
  rw [hread, List.nil_append, ← hcs'] at hscans
  exact hscans.scan_eq

/-- An integer alone is a document, of one number that it writes. -/
theorem arena_decimal (m : Int) (allow : Bool) :
    ∃ n : Node, (parse (decimal m) allow).arena = [(none, n)] ∧ n.Writes (decimal m) m := by
  have hcurrent : (opening (context (decimal m) allow) (Token.scan (decimal m))).current =
      Token.ofLexeme [] [] (Lexeme.plain .number (decimal m)) := by
    rw [scan_decimal]
    simp [opening, Cursor.draw, Token.ofLexeme, Lexeme.plain, TokenKind.isComment]
  generalize hp : opening (context (decimal m) allow) (Token.scan (decimal m)) = p at hcurrent
  have hatom : p.atom? (context (decimal m) allow) =
      some (.number (ofDecimal (decide (m < 0)) m.natAbs 0) true, p) := by
    simp [Cursor.atom?, Cursor.kind, hcurrent, Token.ofLexeme, Lexeme.plain,
      Cursor.readNumber?_decimal, Cursor.isIntegral_decimal]
  obtain ⟨mark, q, hreads⟩ : ∃ mark q, Cursor.Reads (context (decimal m) allow) .value p
      [.atom mark (.number (ofDecimal (decide (m < 0)) m.natAbs 0) true)] q := ⟨_, _, .atom hatom⟩
  have hspan := hreads.atom_span (by simp [Cursor.start, Cursor.stop, hcurrent, Token.ofLexeme])
  rw [parse_of_reads (hp ▸ hreads)]
  refine ⟨_, rfl, rfl, slice?_eq_some_iff.2 ⟨[], [], by simp, ?_⟩⟩
  rw [Node.span, Node.mark, hspan, hcurrent]
  simp [Token.ofLexeme, Lexeme.plain]

/-- 2^53 + 1 is rounded when a literal is read, so as a constant it does not fit itself but 2^53 does;
    and the least integer of 64 bits has no integer as its value. -/
theorem constant_missed :
    (parse (decimal 9007199254740993) true).root.map
        (Schema.fits .null (Schema.constant 9007199254740993)) = some false ∧
      (parse (decimal 9007199254740993) true).root.map
        (Schema.fits .null (Schema.constant 9007199254740992)) = some true ∧
      (parse (decimal (-9223372036854775808)) true).root.map
        (Schema.fits .null (Schema.constant (-9223372036854775808))) = some false := by
  decide +kernel

/-- **A schema keeps its constant; an integer of a document is rounded.**  A schema with a constant of
    64 bits is read from its text as it is.  An integer alone is a document; in any document, a constant
    fits an integer iff it is the nearest double and not the least integer.  So an integer fits itself
    iff it is a double and not the least one, and up to 2^53 it is the only constant that fits. -/
theorem integer_constants (n m : Int64) (root : Json) (cs : Text) (allow : Bool) :
    Json.ofText? (Schema.constant n.toInt).text = some (Schema.constant n.toInt) ∧
    (∃ e ∈ (parse (decimal m.toInt) allow).arena, e.2.Writes (decimal m.toInt) m.toInt) ∧
    ∀ e ∈ (parse cs allow).arena, e.2.Writes cs m.toInt →
      (Schema.fits root (Schema.constant n.toInt) e.2 = true ↔
        n ≠ Int64.minValue ∧ Nearest (unit m.toInt.natAbs) m.toInt n.toInt) ∧
      (Schema.fits root (Schema.constant m.toInt) e.2 = true ↔
        m ≠ Int64.minValue ∧ (unit m.toInt.natAbs : Int) ∣ m.toInt) ∧
      (m.toInt.natAbs ≤ 2 ^ 53 → (Schema.fits root (Schema.constant n.toInt) e.2 = true ↔ n = m)) := by
  have hbound := m.le_toInt
  have hbound' := m.toInt_lt
  refine ⟨Schema.ofText?_constant n.le_toInt (n.toInt_lt.trans (by norm_num)), ?_, ?_⟩
  · obtain ⟨node, harena, hwrites⟩ := arena_decimal m.toInt allow
    exact ⟨(none, node), by simp [harena], hwrites⟩
  intro e he hwrites
  have hm : m.toInt.natAbs ≤ 2 ^ 63 := by omega
  have hiff : ∀ k : Int64, Schema.fits root (Schema.constant k.toInt) e.2 = true ↔
      k ≠ Int64.minValue ∧ Nearest (unit m.toInt.natAbs) m.toInt k.toInt := by
    intro k
    have hlo := k.le_toInt
    have hhi := k.toInt_lt
    rw [fits_constant_iff he hwrites hm, Ne, ← Int64.toInt_inj, Int64.toInt_minValue]
    exact and_congr_left fun _ => by omega
  refine ⟨hiff n, ?_, ?_⟩
  · rw [hiff, nearest_self_iff (unit_pos _)]
  · intro hsmall
    rw [hiff, nearest_iff_of_dvd (unit_pos _) (unit_dvd hsmall), Int64.toInt_inj, and_iff_right_iff_imp]
    rintro rfl hmin
    rw [hmin, Int64.toInt_minValue] at hsmall
    omega

/-- 2^62 + 1 is rounded to 2^62, which fits in its place; -7 fits itself. -/
theorem integer_constants_rounded :
    (∃ e ∈ (parse (decimal 4611686018427387905) true).arena,
      e.2.Writes (decimal 4611686018427387905) 4611686018427387905 ∧
      Schema.fits .null (Schema.constant 4611686018427387905) e.2 = false ∧
      Schema.fits .null (Schema.constant 4611686018427387904) e.2 = true) ∧
    ∃ e ∈ (parse (decimal (-7)) true).arena, e.2.Writes (decimal (-7)) (-7) ∧
      Schema.fits .null (Schema.constant (-7)) e.2 = true := by
  constructor
  · have hm : (4611686018427387905 : Int64).toInt = 4611686018427387905 := by decide
    have hn : (4611686018427387904 : Int64).toInt = 4611686018427387904 := by decide
    have hunit : unit 4611686018427387905 = 1024 := by decide
    obtain ⟨-, ⟨e, he, hwrites⟩, hall⟩ := integer_constants 4611686018427387904 4611686018427387905
      .null (decimal (4611686018427387905 : Int64).toInt) true
    obtain ⟨hfits, hself, -⟩ := hall e he hwrites
    rw [hm] at he hwrites hfits hself
    rw [hn] at hfits
    refine ⟨e, he, hwrites, Bool.eq_false_iff.2 fun h => ?_, hfits.2 ⟨by decide, ?_⟩⟩
    · have hdvd := (hself.1 h).2
      rw [show Int.natAbs 4611686018427387905 = 4611686018427387905 from rfl, hunit] at hdvd
      omega
    · rw [show Int.natAbs 4611686018427387905 = 4611686018427387905 from rfl, hunit]
      exact ⟨by omega, by decide, by decide⟩
  · obtain ⟨-, ⟨e, he, hwrites⟩, hall⟩ :=
      integer_constants (-7) (-7) .null (decimal (-7 : Int64).toInt) true
    exact ⟨e, he, hwrites, ((hall e he hwrites).2.2 (by decide)).2 rfl⟩

end Literal

end AnnotatedJson
