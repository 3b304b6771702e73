/-
  Masked texts byte by byte and line by line.

  * `Text.IsFloor`: the greatest character boundary that is not after an offset;
  * `Text.maskPrefix_parts`: where a text is cut to mask it;
  * `Text.utf8_blankOut`: a mask hides each byte by itself;
  * `LineIndex.starts_eq`: the line starts of a text are told by its line feeds, hence
    `LineIndex.starts_blankOut` and `LineIndex.starts_before`: a mask keeps them, and so does a cut;
  * `Text.maskPrefix_aligned` puts these together.
-/
import Mathlib
import AnnotatedJson.Proofs.Counting
import AnnotatedJson.Proofs.Masking

namespace AnnotatedJson

namespace Text

/-! ## Boundaries up to an offset -/

/-- `m` is the greatest offset, not after `n`, between two characters or at an end of the text. -/
structure IsFloor (cs : Text) (n m : Nat) : Prop where
  le : m ≤ n
  boundary : ∃ a b, cs = a ++ b ∧ bytes a = m
  greatest : ∀ a b, cs = a ++ b → bytes a ≤ n → bytes a ≤ m

theorem bytes_takeBytes_le (n : Nat) (cs : Text) : bytes (takeBytes n cs) ≤ n := by
  induction cs generalizing n with
  | nil => exact Nat.zero_le n
  | cons c cs ih =>
    rw [takeBytes]
    split
    · have := ih (n - c.utf8Size)
      rw [bytes_cons]
      omega
    · exact Nat.zero_le n

theorem le_bytes_takeBytes {n : Nat} (a b : Text) (h : bytes a ≤ n) :
    bytes a ≤ bytes (takeBytes n (a ++ b)) := by
  induction a generalizing n with
  | nil => exact Nat.zero_le _
  | cons c a ih =>
    rw [bytes_cons] at h
    have := ih (n := n - c.utf8Size) (by omega)
    rw [List.cons_append, takeBytes, if_pos (by omega), bytes_cons, bytes_cons]
    omega

theorem isFloor_takeBytes (cs : Text) (n : Nat) : IsFloor cs n (bytes (takeBytes n cs)) where
  le := bytes_takeBytes_le n cs
  boundary := ⟨takeBytes n cs, dropBytes n cs, (takeBytes_append_dropBytes n cs).symm, rfl⟩
  greatest a b hab h := hab ▸ le_bytes_takeBytes a b h

/-- The greatest boundary in the beginning of a text is the greatest one in the text up to its end. -/
theorem IsFloor.extend {a : Text} {n m : Nat} (h : IsFloor a n m) (b : Text) :
    IsFloor (a ++ b) (min n (bytes a)) m := by
  obtain ⟨x, y, rfl, rfl⟩ := h.boundary
  refine ⟨le_min h.le (by simp), ⟨x, y ++ b, by simp, rfl⟩, fun u v huv hle => ?_⟩
  obtain ⟨w, hw, -⟩ := prefix_of_bytes_le huv.symm (hle.trans (Nat.min_le_right _ _))
  exact h.greatest u w hw (hle.trans (Nat.min_le_left _ _))

/-- **A text is cut in three to mask it**: the first part is hidden, the second shown, the third
    left out. -/
theorem maskPrefix_parts (cs : Text) (start stop : Nat) :
    ∃ hidden shown rest, cs = hidden ++ shown ++ rest ∧
      maskPrefix cs start stop = blankOut hidden ++ shown ∧
      IsFloor cs (min stop (bytes cs)) (bytes (hidden ++ shown)) ∧
      IsFloor cs (min start (bytes (hidden ++ shown))) (bytes hidden) := by
  have hcs := takeBytes_append_dropBytes stop cs
  have hparts := takeBytes_append_dropBytes start (takeBytes stop cs)
  refine ⟨takeBytes start (takeBytes stop cs), dropBytes start (takeBytes stop cs),
    dropBytes stop cs,
    ?_, rfl, ?_, ?_⟩
  · rw [hparts, hcs]
  · rw [hparts]
    simpa using (isFloor_takeBytes cs stop).extend []
  · rw [hparts]
    have hstart := (isFloor_takeBytes (takeBytes stop cs) start).extend (dropBytes stop cs)
    rwa [hcs] at hstart

/-! ## The bytes of a mask -/

/-- The byte of a carriage return. -/
def carriageReturn : UInt8 := 13

/-- The byte of a space. -/
def space : UInt8 := 32

/-- A byte as seen through the mask. -/
def maskByte (b : UInt8) : UInt8 := if b = lineFeed ∨ b = carriageReturn then b else space

theorem carriageReturn_mem_encode_iff {c : Char} :
    carriageReturn ∈ String.utf8EncodeChar c ↔ c = '\r' :=
  ascii_mem_encode_iff (d := '\r') (by decide)

theorem utf8_replicate (n : Nat) : utf8 (List.replicate n ' ') = List.replicate n space := by
  induction n with
  | zero => rfl
  | succ n ih =>
    rw [List.replicate_succ, utf8_cons, ih, List.replicate_succ]
    rfl

theorem utf8_maskChar (c : Char) : utf8 (maskChar c) = (String.utf8EncodeChar c).map maskByte := by
  unfold maskChar
  split
  next h => rcases h with rfl | rfl <;> decide
  next h =>
    -- No byte of another character is one of a line break, so all of them become spaces.
    have hall : ∀ b ∈ (String.utf8EncodeChar c).map maskByte, b = space := by
      intro b hb
      obtain ⟨b', hb', rfl⟩ := List.mem_map.1 hb
      refine if_neg ?_
      rintro (rfl | rfl)
      · exact h (.inl (lineFeed_mem_encode_iff.1 hb'))
      · exact h (.inr (carriageReturn_mem_encode_iff.1 hb'))
    rw [utf8_replicate, List.eq_replicate_of_mem hall, List.length_map,
      String.length_utf8EncodeChar]

/-- **A mask hides each byte by itself.** -/
theorem utf8_blankOut (cs : Text) : utf8 (blankOut cs) = (utf8 cs).map maskByte := by
  induction cs with
  | nil => rfl
  | cons c cs ih => rw [blankOut_cons, utf8_append, utf8_maskChar, ih, utf8_cons, List.map_append]

theorem take_utf8 (a b : Text) : (utf8 (a ++ b)).take (bytes a) = utf8 a := by
  rw [utf8_append, List.take_left' (length_utf8 a)]

theorem drop_utf8 (a b : Text) : (utf8 (a ++ b)).drop (bytes a) = utf8 b := by
  rw [utf8_append, List.drop_left' (length_utf8 a)]

/-! ## Line breaks -/

/-- The offsets behind the line feeds of a text that is at `offset`. -/
def breaks (offset : Nat) (cs : Text) : List Nat :=
  ((placed offset cs).filter fun x => x.2 = '\n').map fun x => x.1 + 1

theorem breaks_cons (offset : Nat) (c : Char) (cs : Text) :
    breaks offset (c :: cs) =
      (if c = '\n' then [offset + 1] else []) ++ breaks (offset + c.utf8Size) cs := by
  by_cases hc : c = '\n' <;> simp [breaks, placed, hc]

theorem breaks_append (offset : Nat) (a b : Text) :
    breaks offset (a ++ b) = breaks offset a ++ breaks (offset + bytes a) b := by
  simp [breaks, placed_append]

theorem breaks_eq_nil {cs : Text} (h : '\n' ∉ cs) (offset : Nat) : breaks offset cs = [] := by
  induction cs generalizing offset with
  | nil => rfl
  | cons c cs ih =>
    have hc : c ≠ '\n' := (List.ne_of_not_mem_cons h).symm
    rw [breaks_cons, if_neg hc, ih (List.not_mem_of_not_mem_cons h), List.append_nil]

theorem lt_of_mem_breaks {offset n : Nat} {cs : Text} (h : n ∈ breaks offset cs) :
    offset < n ∧ n ≤ offset + bytes cs := by
  obtain ⟨x, hx, rfl⟩ := List.mem_map.1 h
  have := le_of_mem_placed (List.mem_filter.1 hx).1
  omega

theorem breaks_maskChar (offset : Nat) (c : Char) :
    breaks offset (maskChar c) = breaks offset [c] := by
  unfold maskChar
  split
  next => rfl
  next h =>
    have hspaces : '\n' ∉ List.replicate c.utf8Size ' ' := by simp
    have hc : '\n' ∉ [c] := fun hmem => h (.inl (List.mem_singleton.1 hmem).symm)
    rw [breaks_eq_nil hspaces, breaks_eq_nil hc]

theorem breaks_blankOut (offset : Nat) (cs : Text) :
    breaks offset (blankOut cs) = breaks offset cs := by
  induction cs generalizing offset with
  | nil => rfl
  | cons c cs ih =>
    have hcons : breaks offset (c :: cs) = breaks offset [c] ++ breaks (offset + c.utf8Size) cs :=
      breaks_append offset [c] cs
    rw [blankOut_cons, breaks_append, breaks_maskChar, bytes_maskChar, ih, hcons]

end Text

/-- Cutting a text into lines starts one where it begins and one behind each line feed. -/
theorem Line.split_starts (start : Nat) (seen : Text) (offset : Nat) (cs : Text) :
    (split start seen offset cs).map Line.start = start :: Text.breaks offset cs := by
  induction cs generalizing start seen offset with
  | nil => rfl
  | cons c cs ih =>
    rw [split, Text.breaks_cons]
    split
    next hc =>
      subst hc
      rw [List.map_cons, ih]
      rfl
    next => rw [ih, List.nil_append]

namespace LineIndex

theorem starts_eq (cs : Text) : (ofText cs).starts = 0 :: Text.breaks 0 cs :=
  Line.split_starts 0 [] 0 cs

/-- A mask keeps the lines. -/
theorem starts_blankOut (a b : Text) : (ofText (Text.blankOut a ++ b)).starts =
    (ofText (a ++ b)).starts := by
  rw [starts_eq, starts_eq, Text.breaks_append, Text.breaks_blankOut, Text.bytes_blankOut,
    ← Text.breaks_append]

/-- The beginning of a text has the lines of the text that start up to its end. -/
theorem starts_before (a b : Text) :
    (ofText a).starts = (ofText (a ++ b)).starts.filter (· ≤ Text.bytes a) := by
  have hbefore : (Text.breaks 0 a).filter (· ≤ Text.bytes a) = Text.breaks 0 a := by
    rw [List.filter_eq_self]
    intro n hn
    have := (Text.lt_of_mem_breaks hn).2
    simpa using this
  have hbehind : (Text.breaks (0 + Text.bytes a) b).filter (· ≤ Text.bytes a) = [] := by
    rw [List.filter_eq_nil_iff]
    intro n hn
    have := (Text.lt_of_mem_breaks hn).1
    simpa using this
  rw [starts_eq, starts_eq, Text.breaks_append, List.filter_cons, if_pos (by simp),
    List.filter_append,
    hbefore, hbehind, List.append_nil]

end LineIndex

namespace Text

/-- **A masked text is aligned with its source.**  With `e` the greatest character boundary up to
    `stop` and `s` the greatest one up to `start` and `e`, it has `e` bytes: those from `s` on are
    those of the source, and of those before `s` the line feeds and carriage returns are kept and
    the others are spaces.  Its lines start where the lines of the source do that start up to `e`. -/
theorem maskPrefix_aligned (cs : Text) (start stop : Nat) :
    ∃ s e, IsFloor cs (min stop (bytes cs)) e ∧ IsFloor cs (min start e) s ∧
      (utf8 (maskPrefix cs start stop)).length = e ∧
      (utf8 (maskPrefix cs start stop)).drop s = ((utf8 cs).take e).drop s ∧
      (utf8 (maskPrefix cs start stop)).take s = ((utf8 cs).take s).map maskByte ∧
      (LineIndex.ofText (maskPrefix cs start stop)).starts =
        (LineIndex.ofText cs).starts.filter (· ≤ e) := by
  obtain ⟨hidden, shown, rest, hcs, hmask, hstop, hstart⟩ := maskPrefix_parts cs start stop
  refine ⟨bytes hidden, bytes (hidden ++ shown), hstop, hstart, ?_⟩
  rw [hmask, hcs]
  refine ⟨?_, ?_, ?_, ?_⟩
  · rw [length_utf8, bytes_append, bytes_blankOut, bytes_append]
  · rw [take_utf8, drop_utf8, ← bytes_blankOut hidden, drop_utf8]
  · rw [List.append_assoc, take_utf8, ← bytes_blankOut hidden, take_utf8, utf8_blankOut]
  · rw [LineIndex.starts_blankOut, LineIndex.starts_before (hidden ++ shown) rest]

-- Both bounds stand inside a character.
example : maskPrefix ['中', '\r', '\n', 'é', 'b', '😀'] 6 10 =
    [' ', ' ', ' ', '\r', '\n', 'é', 'b'] := by
  decide

end Text

end AnnotatedJson
