/-
  Strings and their spellings.

  A character of a string stands for itself, or is written as a backslash and a letter, or as one
  Unicode escape for each of its UTF-16 units.  Escapes are read one at a time, so the two escapes of
  a surrogate pair are not put together.

  * `Text.codeUnits`: the UTF-16 units of a character;
  * `Lexeme.Written`: the ways to write a character, and `Lexeme.Glyph`: a character written in one of
    them;
  * `Lexeme.string_glyphs`: how written characters are read;
  * `Token.pair_read_apart`: a surrogate pair is read as two characters;
  * `Token.scan_spelling`: any other spelling of a string is read as the string.
-/
import Mathlib
import AnnotatedJson.Json.Reader
import AnnotatedJson.Proofs.Content
import AnnotatedJson.Proofs.Masking

namespace AnnotatedJson

/-- The UTF-16 units of a character: its code, or a surrogate pair. -/
def Text.codeUnits (c : Char) : List Nat :=
  if c.toNat < 0x10000 then [c.toNat]
  else [0xD800 + (c.toNat - 0x10000) / 0x400, 0xDC00 + (c.toNat - 0x10000) % 0x400]

namespace Lexeme

/-! ## Written characters -/

/-- A Unicode escape of a code unit. -/
inductive Escapes : Text → Nat → Prop
  | digits {a b c d unit} : Text.hexCode? [a, b, c, d] = some unit →
      Escapes ['\\', 'u', a, b, c, d] unit

/-- The ways to write a character of a string. -/
inductive Written : Char → Text → Prop
  /-- The character itself. -/
  | raw {c} : c ≠ '"' → c ≠ '\\' → (Text.isControl c = true → c = '\t') → Written c [c]
  /-- A backslash and a letter. -/
  | letter {c e} : (e, c) ∈ escapes → Written c ['\\', e]
  /-- A Unicode escape for each code unit. -/
  | unicode {c ts} : List.Forall₂ Escapes ts (Text.codeUnits c) → Written c ts.flatten

/-- A character of a string with the text that it is written as. -/
structure Glyph where
  char : Char
  text : Text
  written : Written char text

/-- A character of one code unit, or one that stands for itself; any other one is written as a
    surrogate pair. -/
def Glyph.Single (g : Glyph) : Prop := g.char.toNat < 0x10000 ∨ g.text = [g.char]

instance : DecidablePred Glyph.Single := fun _ => inferInstanceAs (Decidable (_ ∨ _))

/-- What is read: the character, or two replacement characters for a surrogate pair. -/
def Glyph.heard (g : Glyph) : Text :=
  if g.Single then [g.char] else [Char.ofNat 0xFFFD, Char.ofNat 0xFFFD]

/-! ## Reading them -/

theorem scalarOf_toNat (c : Char) : scalarOf c.toNat = c := by
  have hvalid : c.toNat < 0xD800 ∨ 0xDFFF < c.toNat ∧ c.toNat < 0x110000 := c.valid
  rw [scalarOf, if_neg (by omega), Char.ofNat_toNat]

/-- The units of a surrogate pair stand for no character. -/
theorem scalarOf_codeUnits (c : Char) : (Text.codeUnits c).map scalarOf =
    if c.toNat < 0x10000 then [c] else [Char.ofNat 0xFFFD, Char.ofNat 0xFFFD] := by
  have hvalid : c.toNat < 0xD800 ∨ 0xDFFF < c.toNat ∧ c.toNat < 0x110000 := c.valid
  unfold Text.codeUnits
  split
  · rw [List.map_singleton, scalarOf_toNat]
  · simp only [List.map_cons, List.map_nil, scalarOf]
    rw [if_pos (by omega), if_pos (by omega)]

/-- Escapes are read one at a time. -/
theorem string_escapes {ts : List Text} {units : List Nat} (h : List.Forall₂ Escapes ts units)
    (source value : Text) (fault : Option Fault) (rest : Text) :
    string .plain source value fault (ts.flatten ++ rest) =
      string .plain (ts.flatten.reverse ++ source)
        ((units.map scalarOf).reverse ++ value) fault rest := by
  induction h generalizing source value with
  | nil => rfl
  | @cons t unit ts units ht _ ih =>
    cases ht with
    | digits hcode =>
      rw [List.flatten_cons, List.append_assoc]
      simp only [List.cons_append, List.nil_append]
      rw [string_unicode _ _ _ _ hcode, ih]
      simp

/-- A code unit is written with an escape, never by the character alone. -/
theorem ne_singleton_of_escapes {ts : List Text} {c d : Char}
    (h : List.Forall₂ Escapes ts (Text.codeUnits c)) : ts.flatten ≠ [d] := by
  unfold Text.codeUnits at h
  split at h
  all_goals
    cases h with
    | cons ht _ =>
      cases ht with
      | digits _ => simp

/-- **A written character is read as itself, a surrogate pair as two replacement characters.** -/
theorem string_glyph (g : Glyph) (source value : Text) (fault : Option Fault) (rest : Text) :
    string .plain source value fault (g.text ++ rest) =
      string .plain (g.text.reverse ++ source) (g.heard.reverse ++ value) fault rest := by
  obtain ⟨c, text, hw⟩ := g
  cases hw with
  | raw hq hb hc =>
    have hheard : Glyph.heard ⟨c, [c], .raw hq hb hc⟩ = [c] := if_pos (.inr rfl)
    rw [hheard]
    exact string_raw source value fault rest hq hb hc
  | @letter e he =>
    have hsmall : c.toNat < 0x10000 := by
      simp only [escapes, List.mem_cons, Prod.mk.injEq, List.not_mem_nil, or_false] at he
      rcases he with ⟨-, rfl⟩ | ⟨-, rfl⟩ | ⟨-, rfl⟩ | ⟨-, rfl⟩ | ⟨-, rfl⟩ | ⟨-, rfl⟩ | ⟨-, rfl⟩ |
        ⟨-, rfl⟩ <;> decide
    have hheard : Glyph.heard ⟨c, ['\\', e], .letter he⟩ = [c] := if_pos (.inl hsmall)
    rw [hheard]
    exact string_letter source value fault rest he
  | @unicode ts hts =>
    have hheard : Glyph.heard ⟨c, ts.flatten, .unicode hts⟩ = (Text.codeUnits c).map scalarOf := by
      rw [scalarOf_codeUnits, Glyph.heard]
      refine if_congr ?_ rfl rfl
      exact or_iff_left (ne_singleton_of_escapes hts)
    rw [hheard]
    exact string_escapes hts source value fault rest

/-- A string of written characters is read to its closing quote. -/
theorem string_glyphs (gs : List Glyph) (source value : Text) (fault : Option Fault) (rest : Text) :
    string .plain source value fault (gs.flatMap Glyph.text ++ '"' :: rest) =
      (⟨.string, source.reverse ++ gs.flatMap Glyph.text ++ ['"'],
        value.reverse ++ gs.flatMap Glyph.heard, fault⟩, rest) := by
  induction gs generalizing source value with
  | nil => simp [string]
  | cons g gs ih =>
    rw [List.flatMap_cons, List.append_assoc, string_glyph, ih]
    simp

/-- A surrogate pair is heard as one character too many. -/
theorem length_heard (gs : List Glyph) :
    (gs.flatMap Glyph.heard).length = gs.length + gs.countP fun g => ¬ g.Single := by
  induction gs with
  | nil => rfl
  | cons g gs ih =>
    rw [List.flatMap_cons, List.length_append, ih, List.length_cons, List.countP_cons]
    by_cases hg : g.Single <;> simp [Glyph.heard, hg] <;> omega

/-- A string is heard as it is iff none of its characters is written as a surrogate pair. -/
theorem heard_eq_iff (gs : List Glyph) :
    gs.flatMap Glyph.heard = gs.map Glyph.char ↔ ∀ g ∈ gs, g.Single := by
  constructor
  · intro h
    have hlen := length_heard gs
    rw [h, List.length_map, Nat.left_eq_add, List.countP_eq_zero] at hlen
    simpa using hlen
  · intro h
    induction gs with
    | nil => rfl
    | cons g gs ih =>
      obtain ⟨hg, hgs⟩ := List.forall_mem_cons.1 h
      rw [List.flatMap_cons, Glyph.heard, if_pos hg, ih hgs]
      rfl

end Lexeme

namespace Token

open Lexeme

/-! ## Whole texts -/

/-- A string of written characters between quotes. -/
def spelling (gs : List Glyph) : Text := '"' :: gs.flatMap Glyph.text ++ ['"']

theorem scan_glyphs (gs : List Glyph) : scan (spelling gs) =
    [⟨.string, ⟨0, Text.bytes (spelling gs)⟩, gs.flatMap Glyph.heard, none, false⟩,
      ⟨.eof, ⟨Text.bytes (spelling gs), Text.bytes (spelling gs)⟩, [], none, false⟩] := by
  have hread : Lexeme.read '"' (gs.flatMap Glyph.text ++ ['"']) =
      (⟨.string, spelling gs, gs.flatMap Glyph.heard, none⟩, []) := by
    have hstring := string_glyphs gs ['"'] [] none []
    simpa [Lexeme.read, single?, spelling] using hstring
  have hscans : Scans [] ([] ++ '"' :: (gs.flatMap Glyph.text ++ ['"'])) _ :=
    .token (by simp) (by decide) (by rw [hread]; exact .eof (by simp))
  rw [hread] at hscans
  refine Eq.trans ?_ (hscans.scan_eq.trans ?_)
  · rfl
  · simp [ofLexeme, endOfInput]

/-- The character U+1F600, written as a surrogate pair. -/
def pairGlyph : Glyph where
  char := Char.ofNat 0x1F600
  text := [['\\', 'u', 'd', '8', '3', 'd'], ['\\', 'u', 'd', 'e', '0', '0']].flatten
  written := .unicode (.cons (.digits (by decide)) (.cons (.digits (by decide)) .nil))

/-- A surrogate pair is read as two characters, none of which is the one that it stands for.  Strict
    reading puts the pair together. -/
theorem pair_read_apart :
    scan (spelling [pairGlyph]) =
      [⟨.string, ⟨0, 14⟩, [Char.ofNat 0xFFFD, Char.ofNat 0xFFFD], none, false⟩,
        ⟨.eof, ⟨14, 14⟩, [], none, false⟩] ∧
    Json.ofText? (spelling [pairGlyph]) = some (.string (String.ofList [pairGlyph.char])) := by
  constructor
  · decide
  · cbv

/-- **A string is read from any of its spellings that have no surrogate pair.**  Whatever the
    characters of a string are written as, scanning it between quotes finds one token without a
    fault, which covers the text.  Its content is the string iff no character is written as a
    surrogate pair; each pair becomes two replacement characters. -/
theorem scan_spelling (gs : List Glyph) :
    scan (spelling gs) =
      [⟨.string, ⟨0, Text.bytes (spelling gs)⟩, gs.flatMap Glyph.heard, none, false⟩,
        ⟨.eof, ⟨Text.bytes (spelling gs), Text.bytes (spelling gs)⟩, [], none, false⟩] ∧
    (gs.flatMap Glyph.heard = gs.map Glyph.char ↔ ∀ g ∈ gs, g.Single) :=
  ⟨scan_glyphs gs, heard_eq_iff gs⟩

end Token

end AnnotatedJson
