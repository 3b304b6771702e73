/-
  Printed values, read strictly.

  * `Json.Whole`: the numbers that strict reading keeps exactly;
  * `Json.number?_decimal`, `Json.string?_escaped`: a printed number and a printed string are read
    again;
  * `Json.height`: how deep the containers of a value nest;
  * `Json.reread`: a value with its numbers read from their texts, `Json.Legible`: they can be read;
  * `Json.read?_reread`: strict reading of a printed value changes nothing but its numbers;
  * `Json.read?_text`: on whole numbers strict reading undoes printing.
-/
import Mathlib
import AnnotatedJson.Proofs.Printing

namespace AnnotatedJson.Json

open Text Lexeme

/-! ## Numbers -/

/-- Where a value is a number, it is an integer of 64 bits, with or without a sign. -/
def Whole : Json → Prop
  | .number (.int n) => -2 ^ 63 ≤ n ∧ n < 2 ^ 64
  | .number (.float _) => False
  | _ => True

/-- The number that digits write after those of `m`. -/
def digitsFrom (m : Nat) (ds : Text) : Nat := ds.foldl (fun n c => n * 10 + (c.toNat - 48)) m

theorem le_digitsFrom (m : Nat) (ds : Text) : m ≤ digitsFrom m ds := by
  induction ds generalizing m with
  | nil => exact le_rfl
  | cons c ds ih => exact le_trans (by omega) (ih (m * 10 + (c.toNat - 48)))

/-- Digits are kept exactly as long as they fit 64 bits. -/
theorem significand_eq {m : Nat} {ds : Text} (h : digitsFrom m ds < 2 ^ 64) :
    significand m ds = (digitsFrom m ds, 0) := by
  induction ds generalizing m with
  | nil => rfl
  | cons c ds ih =>
    have hfits : m * 10 + (c.toNat - 48) < 2 ^ 64 := (le_digitsFrom _ ds).trans_lt h
    have hstep : significand m (c :: ds) = significand (m * 10 + (c.toNat - 48)) ds := if_pos hfits
    rw [hstep, ih h]
    rfl

/-- A printed number without its sign is read as an integer. -/
theorem unsigned?_toDigits (negative : Bool) {n : Nat} (hn : n < 2 ^ 64) {rest : Text}
    (h : Closes rest) : unsigned? negative (Nat.toDigits 10 n ++ rest) =
      (integer? negative n 0).map fun x => (x, rest) := by
  have hlead : (Nat.toDigits 10 n).length = 1 ∨ (Nat.toDigits 10 n).head? ≠ some '0' := by
    rcases Nat.eq_zero_or_pos n with rfl | hpos
    · exact .inl rfl
    · exact .inr (head_toDigits hpos)
  have hguard : (!(Nat.toDigits 10 n).isEmpty && ((Nat.toDigits 10 n).length == 1 ||
      (Nat.toDigits 10 n).head? != some '0')) = true := by
    simpa [Nat.toDigits_ne_nil] using hlead
  have hsig : significand 0 (Nat.toDigits 10 n) = (n, 0) := by
    have hvalue : digitsFrom 0 (Nat.toDigits 10 n) = n := natOfDigits_toDigits n
    rw [significand_eq (by rwa [hvalue]), hvalue]
  unfold unsigned?
  rw [takeWhile_digits (isDigit_toDigits n) h.noDigit, dropWhile_digits (isDigit_toDigits n) h.noDigit]
  dsimp only
  rw [hguard, hsig]
  have hbind : ∀ rest : Text, ((integer? negative n 0).bind fun x => some (x, rest)) =
      (integer? negative n 0).map fun x => (x, rest) := by
    intro rest
    cases integer? negative n 0 <;> rfl
  cases rest with
  | nil => exact hbind []
  | cons c rest => rcases h c rfl with rfl | rfl | rfl <;> exact hbind _

/-- A printed integer of 64 bits is read exactly. -/
theorem number?_decimal {n : Int} (hn : -2 ^ 63 ≤ n ∧ n < 2 ^ 64) {rest : Text} (h : Closes rest) :
    number? (decimal n ++ rest) = some (.int n, rest) := by
  unfold decimal
  split
  next hneg =>
    have hin : 0 < n.natAbs ∧ n.natAbs ≤ 0x8000000000000000 := by omega
    have hint : integer? true n.natAbs 0 = some (.int n) := by
      rw [integer?, if_neg (by simp), if_pos rfl, if_pos hin, show -(n.natAbs : Int) = n by omega]
    rw [List.cons_append, number?, unsigned?_toDigits true (by omega) h, hint]
    rfl
  next hpos =>
    have hint : integer? false n.natAbs 0 = some (.int n) := by
      rw [integer?, if_neg (by simp), if_neg (by simp), show (n.natAbs : Int) = n by omega]
    obtain ⟨d, ds, hds⟩ := List.exists_cons_of_ne_nil (Nat.toDigits_ne_nil (n := n.natAbs) (b := 10))
    have hd : isDigit d = true := isDigit_toDigits n.natAbs d (hds ▸ List.mem_cons_self ..)
    have hplain : number? (Nat.toDigits 10 n.natAbs ++ rest) =
        unsigned? false (Nat.toDigits 10 n.natAbs ++ rest) := by
      rw [hds, List.cons_append, number?]
      rintro tail heq
      rw [(List.cons.inj heq).1] at hd
      exact absurd hd (by decide)
    rw [hplain, unsigned?_toDigits false (by omega) h, hint]
    rfl

/-! ## Strings -/

/-- A printed character is read as itself. -/
theorem stringBody?_escapeChar (c : Char) (fuel : Nat) (seen cs : Text) :
    stringBody? (fuel + 1) seen (escapeChar c ++ cs) = stringBody? fuel (c :: seen) cs := by
  rcases escapeChar_cases c with ⟨e, he, hesc, -⟩ | ⟨hlow, hesc⟩ | ⟨hhigh, hquote, hslash, hesc⟩
  · rw [hesc]
    simp only [escapes, List.mem_cons, Prod.mk.injEq, List.not_mem_nil, or_false] at he
    rcases he with ⟨rfl, rfl⟩ | ⟨rfl, rfl⟩ | ⟨rfl, rfl⟩ | ⟨rfl, rfl⟩ | ⟨rfl, rfl⟩ | ⟨rfl, rfl⟩ |
      ⟨rfl, rfl⟩ | ⟨rfl, rfl⟩ <;> rfl
  · have hescape :
        escape? ('u' :: '0' :: '0' :: hexDigit (c.toNat / 16) :: hexDigit (c.toNat % 16) :: cs) =
        some (c, cs) := by
      have hunit : isHighSurrogate c.toNat = false ∧ isLowSurrogate c.toNat = false := by
        simp only [isHighSurrogate, isLowSurrogate, Bool.and_eq_false_iff, decide_eq_false_iff_not]
        omega
      simp [escape?, unicodeEscape?, hex4?, hexCode?_escaped hlow, hunit]
    rw [hesc]
    simp only [List.cons_append, List.nil_append]
    rw [stringBody?, hescape]
    rfl
  · rw [hesc, List.singleton_append, stringBody?]
    · exact if_neg (by omega)
    · exact hquote
    · exact hslash

theorem stringBody?_escaped (s rest seen : Text) {fuel : Nat} (hf : s.length < fuel) :
    stringBody? fuel seen (s.flatMap escapeChar ++ '"' :: rest) = some (seen.reverse ++ s, rest) := by
  induction s generalizing fuel seen with
  | nil =>
    obtain ⟨fuel, rfl⟩ := Nat.exists_eq_add_of_lt hf
    simp [stringBody?]
  | cons c s ih =>
    cases fuel with
    | zero => exact absurd hf (Nat.not_lt_zero _)
    | succ fuel =>
      rw [List.flatMap_cons, List.append_assoc, stringBody?_escapeChar, ih _ (by simpa using hf)]
      simp

theorem length_le_escaped (s : Text) : s.length ≤ (s.flatMap escapeChar).length := by
  induction s with
  | nil => exact le_rfl
  | cons c s ih =>
    have hpos : 0 < (escapeChar c).length := by
      rcases escapeChar_cases c with ⟨e, -, hesc, -⟩ | ⟨-, hesc⟩ | ⟨-, -, -, hesc⟩ <;> simp [hesc]
    rw [List.flatMap_cons, List.length_append, List.length_cons]
    omega

/-- A printed string is read as itself. -/
theorem string?_escaped (s rest : Text) :
    string? (s.flatMap escapeChar ++ '"' :: rest) = some (s, rest) := by
  refine stringBody?_escaped s rest [] ?_
  have hlen := length_le_escaped s
  rw [List.length_append]
  omega

/-! ## Values -/

mutual

/-- How deep the containers of a value nest. -/
def height : Json → Nat
  | .array xs => heightItems xs + 1
  | .object ms => heightMembers ms + 1
  | _ => 0

/-- How deep the containers of items nest. -/
def heightItems : List Json → Nat
  | [] => 0
  | x :: xs => max (height x) (heightItems xs)

/-- How deep the containers of members nest. -/
def heightMembers : List (String × Json) → Nat
  | [] => 0
  | (_, v) :: ms => max (height v) (heightMembers ms)

end

/-- The number that is read from the text of a number. -/
def rereadNumber (n : Number) : Number := ((number? (numberText n)).map Prod.fst).getD n

mutual

/-- A value with its numbers read from their texts. -/
def reread : Json → Json
  | .null => .null
  | .bool b => .bool b
  | .number n => .number (rereadNumber n)
  | .string s => .string s
  | .array xs => .array (rereadItems xs)
  | .object ms => .object (rereadMembers ms)

/-- Items with their numbers read from their texts. -/
def rereadItems : List Json → List Json
  | [] => []
  | x :: xs => reread x :: rereadItems xs

/-- Members with their numbers read from their texts. -/
def rereadMembers : List (String × Json) → List (String × Json)
  | [] => []
  | (k, v) :: ms => (k, reread v) :: rereadMembers ms

end

/-- Where a value is a number, a number is read from its text. -/
def Legible : Json → Prop
  | .number n => ∀ rest, Closes rest → number? (numberText n ++ rest) = some (rereadNumber n, rest)
  | _ => True

/-- A number starts with its sign or a digit. -/
theorem opens_of_number? {cs : Text} {r : Number × Text} (h : number? cs = some r) :
    ∃ c rest, cs = c :: rest ∧ (c = '-' ∨ isDigit c = true) := by
  cases cs with
  | nil => cases h
  | cons c rest =>
    refine ⟨c, rest, rfl, ?_⟩
    by_contra hc
    obtain ⟨hminus, hdigit⟩ := not_or.1 hc
    have hplain : number? (c :: rest) = unsigned? false (c :: rest) := by
      rw [number?]
      rintro tail heq
      exact hminus (List.cons.inj heq).1
    have htake : (c :: rest).takeWhile isDigit = [] := List.takeWhile_cons_of_neg hdigit
    rw [hplain, unsigned?, htake] at h
    cases h

theorem Legible.opens {n : Number} (h : (Json.number n).Legible) :
    ∃ c cs, numberText n = c :: cs ∧ (c = '-' ∨ isDigit c = true) :=
  opens_of_number? ((List.append_nil _).symm ▸ h [] (by simp [Closes]))

section
variable {n n' : Number}
  (h : ∀ rest, Closes rest → number? (numberText n ++ rest) = some (n', rest))

include h

theorem rereadNumber_eq : rereadNumber n = n' := by
  have hread := h [] (by simp [Closes])
  rw [List.append_nil] at hread
  rw [rereadNumber, hread]
  rfl

theorem legible_number : (Json.number n).Legible := by
  intro rest hr
  rw [rereadNumber_eq h]
  exact h rest hr

end

theorem Whole.legible {v : Json} (h : v.Whole) : v.Legible := by
  rcases v with _ | _ | (n | _) | _ | _ | _
  case number.int => exact legible_number fun rest hr => number?_decimal h hr
  case number.float => exact h.elim
  all_goals trivial

mutual

theorem reread_whole : ∀ {v : Json}, (∀ w ∈ v.inner, w.Whole) → v.reread = v
  | .null, _ | .bool _, _ | .string _, _ => by rw [reread]
  | .number (.int n), h => by
    have hwhole : (Json.number (.int n)).Whole := h _ (self_mem_inner _)
    rw [reread, rereadNumber_eq (n := .int n) fun rest hr => number?_decimal hwhole hr]
  | .number (.float _), h => (h _ (self_mem_inner _)).elim
  | .array xs, h => by
    rw [reread, rereadItems_whole fun w hw => h w (by simp [inner, hw])]
  | .object ms, h => by
    rw [reread, rereadMembers_whole fun w hw => h w (by simp [inner, hw])]

theorem rereadItems_whole : ∀ {xs : List Json}, (∀ w ∈ innerItems xs, w.Whole) → rereadItems xs = xs
  | [], _ => by rw [rereadItems]
  | x :: xs, h => by
    rw [rereadItems, reread_whole fun w hw => h w (by simp [innerItems, hw]),
      rereadItems_whole fun w hw => h w (by simp [innerItems, hw])]

theorem rereadMembers_whole : ∀ {ms : List (String × Json)}, (∀ w ∈ innerMembers ms, w.Whole) →
    rereadMembers ms = ms
  | [], _ => by rw [rereadMembers]
  | (k, v) :: ms, h => by
    rw [rereadMembers, reread_whole fun w hw => h w (by simp [innerMembers, hw]),
      rereadMembers_whole fun w hw => h w (by simp [innerMembers, hw])]

end

theorem skipSpaces_cons {c : Char} (h : isSpace c = false) (cs : Text) :
    skipSpaces (c :: cs) = c :: cs := by
  simp [skipSpaces, h]

/-- The characters that a value may start with: none is a blank or closes a container. -/
def Opens (c : Char) : Prop := isSpace c = false ∧ c ≠ ']' ∧ c ≠ '}'

theorem opens_of_digit {c : Char} (h : isDigit c = true) : Opens c := by
  simp only [Opens, isSpace, Bool.or_eq_false_iff, decide_eq_false_iff_not]
  refine ⟨⟨⟨⟨?_, ?_⟩, ?_⟩, ?_⟩, ?_, ?_⟩ <;> rintro rfl <;> exact absurd h (by decide)

theorem opens_text {v : Json} (h : v.Legible) : ∃ c cs, text v = c :: cs ∧ Opens c := by
  rcases v with _ | (_ | _) | n | s | (_ | _) | (_ | _)
  case number =>
    obtain ⟨c, cs, hcs, hc⟩ := h.opens
    refine ⟨c, cs, by rw [text, hcs], ?_⟩
    rcases hc with rfl | hd
    · exact ⟨by decide, by decide, by decide⟩
    · exact opens_of_digit hd
  all_goals exact ⟨_, _, rfl, by decide, by decide, by decide⟩

/-- A number is read where no other value starts. -/
theorem value?_number {c : Char} (hc : c = '-' ∨ isDigit c = true) (fuel depth : Nat) (cs : Text) :
    value? (fuel + 1) depth (c :: cs) = (number? (c :: cs)).map fun r => (.number r.1, r.2) := by
  have hspace : isSpace c = false := by
    rcases hc with rfl | hd
    · decide
    · exact (opens_of_digit hd).1
  have hother : c ≠ 'n' ∧ c ≠ 't' ∧ c ≠ 'f' ∧ c ≠ '"' ∧ c ≠ '[' ∧ c ≠ '{' := by
    refine ⟨?_, ?_, ?_, ?_, ?_, ?_⟩ <;> rintro rfl <;> exact absurd hc (by decide)
  obtain ⟨h1, h2, h3, h4, h5, h6⟩ := hother
  rw [value?, skipSpaces_cons hspace]
  split <;> simp_all

theorem closes_itemsText (xs : List Json) (rest : Text) : Closes (itemsText xs ++ rest) := by
  cases xs <;> simp [itemsText, Closes]

theorem closes_membersText (ms : List (String × Json)) (rest : Text) :
    Closes (membersText ms ++ rest) := by
  cases ms <;> simp [membersText, Closes]

theorem length_text_pos {v : Json} (h : v.Legible) : 0 < (text v).length := by
  obtain ⟨c, cs, hcs, -⟩ := opens_text h
  rw [hcs]
  exact Nat.succ_pos _

/-- A list of items begins where its first item does. -/
theorem value?_items {x : Json} (hx : x.Legible) (fuel depth : Nat) (rest : Text) :
    value? (fuel + 1) (depth + 1) ('[' :: (text x ++ rest)) = items? fuel depth []
      (text x ++ rest) := by
  obtain ⟨c, cs, hcs, hspace, hclose, -⟩ := opens_text hx
  rw [hcs, List.cons_append, value?, skipSpaces_cons (by decide)]
  simp only [skipSpaces_cons hspace]
  split
  next heq => exact absurd (List.cons.inj heq).1 hclose
  next => rfl

/-- A list of members begins with a name. -/
theorem value?_members (fuel depth : Nat) (k rest : Text) :
    value? (fuel + 1) (depth + 1) ('{' :: (quote k ++ rest)) = members? fuel depth []
      (quote k ++ rest) := by
  rfl

theorem length_itemsText_pos (xs : List Json) : 0 < (itemsText xs).length := by
  cases xs <;> simp [itemsText]

theorem length_quote_pos (s : Text) : 0 < (quote s).length := by simp [quote]

theorem quote_append (s rest : Text) : quote s ++ rest = '"' ::
    (s.flatMap escapeChar ++ '"' :: rest) := by
  simp [quote]

/-- A new name is put last. -/
theorem insert_last {seen ms : List (String × Json)} {k : String} {v : Json}
    (h : ((seen ++ (k, v) :: ms).map (·.1)).Nodup) : insert k v seen = seen ++ [(k, v)] := by
  refine Shorthand.insert_of_notMem (fun hmem => ?_) v
  rw [List.map_append, List.map_cons] at h
  exact (List.nodup_append.1 h).2.2 k hmem k List.mem_cons_self rfl

/-! ### One part after the other -/

section
variable {fuel depth : Nat} {cs rest : Text} {v : Json}

theorem items?_close {seen : List Json} (h : value? fuel depth cs = some (v, ']' :: rest)) :
    items? (fuel + 1) depth seen cs = some (.array (v :: seen).reverse, rest) := by
  rw [items?, h]
  rfl

theorem items?_comma {seen : List Json} (h : value? fuel depth cs = some (v, ',' :: rest)) :
    items? (fuel + 1) depth seen cs = items? fuel depth (v :: seen) rest := by
  rw [items?, h]
  rfl

variable {k after : Text} {seen : List (String × Json)} (hk : string? cs = some (k, ':' :: rest))

include hk

theorem members?_close (h : value? fuel depth rest = some (v, '}' :: after)) :
    members? (fuel + 1) depth seen ('"' :: cs) =
      some (.object (insert (String.ofList k) v seen), after) := by
  rw [members?, skipSpaces_cons (by decide)]
  simp [hk, h, skipSpaces_cons, isSpace]

theorem members?_comma (h : value? fuel depth rest = some (v, ',' :: after)) :
    members? (fuel + 1) depth seen ('"' :: cs) =
      members? fuel depth (insert (String.ofList k) v seen) after := by
  rw [members?, skipSpaces_cons (by decide)]
  simp [hk, h, skipSpaces_cons, isSpace]

end

mutual

/-- **A printed value is read again**, with its numbers as they are read. -/
theorem value?_text : ∀ {v : Json} {fuel depth : Nat} {rest : Text},
    (∀ w ∈ v.inner, w.Legible ∧ w.names.Nodup) → Closes rest → (text v).length ≤ fuel →
    v.height ≤ depth → value? fuel depth (text v ++ rest) = some (v.reread, rest)
  | .null, fuel + 1, _, _, _, _, _, _ => by rw [text]; rfl
  | .bool true, fuel + 1, _, _, _, _, _, _ | .bool false, fuel + 1, _, _, _, _, _,
    _ => by rw [text]; rfl
  | .number n, fuel, depth, rest, h, hr, hf, _ => by
    obtain ⟨hlegible, -⟩ := h _ (self_mem_inner _)
    obtain ⟨fuel, rfl⟩ := Nat.exists_eq_add_of_lt ((length_text_pos hlegible).trans_le hf)
    obtain ⟨c, cs, hcs, hc⟩ := hlegible.opens
    have hread := hlegible rest hr
    rw [hcs, List.cons_append] at hread
    rw [text, hcs, List.cons_append, value?_number hc, hread]
    rfl
  | .string s, fuel + 1, depth, rest, _, _, _, _ => by
    have hread := string?_escaped s.toList rest
    simp only [text, quote, List.cons_append, List.append_assoc, List.nil_append]
    rw [value?, skipSpaces_cons (by decide)]
    simp [hread, reread]
  | .array [], fuel + 1, depth + 1, _, _, _, _, _ => by rw [text]; rfl
  | .array (x :: xs), fuel + 1, depth + 1, rest, h, _, hf, hd => by
    simp only [inner, innerItems, List.mem_cons, List.mem_append] at h
    have hlegible : x.Legible := (h x (.inr (.inl (self_mem_inner x)))).1
    have hpos := length_text_pos hlegible
    have hpos' := length_itemsText_pos xs
    rw [text, List.length_cons, List.length_append] at hf
    obtain ⟨fuel, rfl⟩ : ∃ n, fuel = n + 1 := ⟨fuel - 1, by omega⟩
    rw [height, heightItems, Nat.add_le_add_iff_right, max_le_iff] at hd
    rw [text, List.cons_append, List.append_assoc, value?_items hlegible, reread, rereadItems]
    have hx := value?_text (fun w hw => h w (.inr (.inl hw))) (closes_itemsText xs rest)
      (show _ ≤ fuel by omega) hd.1
    exact items?_text (fun w hw => h w (.inr (.inr hw))) hx (by omega) hd.2
  | .object [], fuel + 1, depth + 1, _, _, _, _, _ => by rw [text]; rfl
  | .object ((k, v) :: ms), fuel + 1, depth + 1, rest, h, _, hf, hd => by
    simp only [inner, innerMembers, List.mem_cons, List.mem_append] at h
    have hquote := length_quote_pos k.toList
    rw [text, List.length_cons, List.length_append, List.length_cons, List.length_append] at hf
    obtain ⟨fuel, rfl⟩ : ∃ n, fuel = n + 1 := ⟨fuel - 1, by omega⟩
    rw [height, heightMembers, Nat.add_le_add_iff_right, max_le_iff] at hd
    rw [text, List.cons_append, List.append_assoc, List.cons_append, List.append_assoc, value?_members,
      reread, rereadMembers]
    have hv := value?_text (fun w hw => h w (.inr (.inl hw))) (closes_membersText ms rest)
      (show _ ≤ fuel by omega) hd.1
    exact members?_text (fun w hw => h w (.inr (.inr hw))) (h _ (.inl rfl)).2 hv (by omega) hd.2

/-- The items after one that was read. -/
theorem items?_text : ∀ {xs seen : List Json} {v : Json} {fuel depth : Nat} {cs rest : Text},
    (∀ w ∈ innerItems xs, w.Legible ∧ w.names.Nodup) →
    value? fuel depth cs = some (v, itemsText xs ++ rest) → (itemsText xs).length ≤ fuel →
    heightItems xs ≤ depth → items? (fuel + 1) depth seen cs =
      some (.array (seen.reverse ++ v :: rereadItems xs), rest)
  | [], seen, v, fuel, depth, cs, rest, _, hv, _, _ => by
    rw [itemsText] at hv
    rw [items?_close hv, List.reverse_cons]
    rfl
  | x :: xs, seen, v, fuel, depth, cs, rest, h, hv, hf, hd => by
    simp only [innerItems, List.mem_append] at h
    rw [itemsText, List.cons_append, List.append_assoc] at hv
    rw [itemsText, List.length_cons, List.length_append] at hf
    obtain ⟨fuel, rfl⟩ : ∃ n, fuel = n + 1 := ⟨fuel - 1, by omega⟩
    rw [heightItems, max_le_iff] at hd
    have hx := value?_text (fun w hw => h w (.inl hw)) (closes_itemsText xs rest)
      (show _ ≤ fuel by omega) hd.1
    rw [items?_comma hv, items?_text (fun w hw => h w (.inr hw)) hx (by omega) hd.2, List.reverse_cons,
      List.append_assoc]
    rfl

/-- The members after one whose value was read. -/
theorem members?_text : ∀ {ms seen : List (String × Json)} {k : String} {v : Json} {fuel depth : Nat}
    {cs rest : Text}, (∀ w ∈ innerMembers ms, w.Legible ∧ w.names.Nodup) →
    ((seen ++ (k, v) :: ms).map (·.1)).Nodup →
    value? fuel depth cs = some (v, membersText ms ++ rest) → (membersText ms).length ≤ fuel →
    heightMembers ms ≤ depth →
    members? (fuel + 1) depth seen (quote k.toList ++ ':' :: cs) =
      some (.object (seen ++ (k, v) :: rereadMembers ms), rest)
  | [], seen, k, v, fuel, depth, cs, rest, _, hnd, hv, _, _ => by
    rw [membersText] at hv
    rw [quote_append, members?_close (string?_escaped k.toList _) hv, String.ofList_toList,
      insert_last hnd]
    rfl
  | (k', v') :: ms, seen, k, v, fuel, depth, cs, rest, h, hnd, hv, hf, hd => by
    simp only [innerMembers, List.mem_append] at h
    rw [membersText, List.cons_append, List.append_assoc, List.cons_append, List.append_assoc] at hv
    rw [membersText, List.length_cons, List.length_append, List.length_cons, List.length_append] at hf
    obtain ⟨fuel, rfl⟩ : ∃ n, fuel = n + 1 := ⟨fuel - 1, by omega⟩
    rw [heightMembers, max_le_iff] at hd
    have hv' := value?_text (fun w hw => h w (.inl hw)) (closes_membersText ms rest)
      (show _ ≤ fuel by omega) hd.1
    have hnd' : (((seen ++ [(k, v)]) ++ (k', v'.reread) :: ms).map (·.1)).Nodup := by
      simpa using hnd
    rw [quote_append, members?_comma (string?_escaped k.toList _) hv, String.ofList_toList,
      insert_last hnd, members?_text (fun w hw => h w (.inr hw)) hnd' hv' (by omega) hd.2,
      List.append_assoc]
    rfl

end

/-- **A printed value changes nothing but its numbers** when it is read strictly, if its objects name
    no member twice and its containers nest no deeper than the limit. -/
theorem read?_reread {v : Json} {limit : Nat} (hlegible : ∀ w ∈ v.inner, w.Legible) (hkeyed : v.Keyed)
    (hlimit : v.height ≤ limit) : read? limit (text v) = some v.reread := by
  have hvalue : value? (2 * (text v).length + 2) limit (text v) = some (v.reread, []) := by
    have h : value? (2 * (text v).length + 2) limit (text v ++ []) = some (v.reread, []) :=
      value?_text (fun w hw => ⟨hlegible w hw, hkeyed w hw⟩) (by simp [Closes]) (by omega) hlimit
    rwa [List.append_nil] at h
  rw [read?, hvalue]
  rfl

/-- **Strict reading undoes printing.**  A value whose numbers are integers of 64 bits and whose
    objects name no member twice is read from its compact text, if its containers nest no deeper than
    the limit. -/
theorem read?_text {v : Json} {limit : Nat} (hwhole : ∀ w ∈ v.inner, w.Whole) (hkeyed : v.Keyed)
    (hlimit : v.height ≤ limit) : read? limit (text v) = some v := by
  rw [read?_reread (fun w hw => (hwhole w hw).legible) hkeyed hlimit, reread_whole hwhole]

end AnnotatedJson.Json
