/-
  Positions by counting.

  The position of an offset is found in the table of lines.  Here it is counted instead, in the
  bytes and characters of the text.

  * `Text.utf8` are the bytes of a text, `Text.placed` its characters with their offsets;
  * `Text.utf8_eq_lineFeed_iff`: a byte is a line feed iff it is the character;
  * `Line.Splits.stands`: a line stands after as many line feeds as there are lines before it;
  * `LineIndex.positionAt_counts`: lines are counted by line feeds and columns by the characters
    after the last of them, and lines start where the text or a line feed says.
-/
import Mathlib
import AnnotatedJson.Proofs.Positions

namespace AnnotatedJson

namespace Text

/-! ## Bytes -/

/-- The bytes of a text. -/
def utf8 (cs : Text) : List UInt8 := cs.flatMap String.utf8EncodeChar

/-- The byte of a line feed. -/
def lineFeed : UInt8 := 10

@[simp] theorem utf8_nil : utf8 [] = [] := rfl

@[simp] theorem utf8_cons (c : Char) (cs : Text) :
    utf8 (c :: cs) = String.utf8EncodeChar c ++ utf8 cs := rfl

@[simp] theorem utf8_append (a b : Text) : utf8 (a ++ b) = utf8 a ++ utf8 b := List.flatMap_append

@[simp] theorem length_utf8 (cs : Text) : (utf8 cs).length = bytes cs := by
  induction cs with
  | nil => rfl
  | cons c cs ih => rw [utf8_cons, List.length_append, String.length_utf8EncodeChar, ih, bytes_cons]

/-- The byte of an ASCII character is a byte of no other character. -/
theorem ascii_mem_encode_iff {c d : Char} (hd : d.toNat < 128) :
    UInt8.ofNat d.toNat ∈ String.utf8EncodeChar c ↔ c = d := by
  have hnat : ∀ n, UInt8.ofNat d.toNat = UInt8.ofNat n → n % 256 = d.toNat := by
    intro n hn
    have := congrArg UInt8.toNat hn
    simp only [UInt8.toNat_ofNat'] at this
    omega
  constructor
  · intro h
    rw [String.utf8EncodeChar] at h
    split_ifs at h
    · have := hnat _ (List.mem_singleton.1 h)
      have hval : c.val.toNat = d.val.toNat := by
        have : d.toNat = d.val.toNat := rfl
        omega
      exact Char.ext (UInt32.toNat_inj.1 hval)
    -- Every byte of a longer character is at least 128.
    all_goals
      simp only [List.mem_cons, List.not_mem_nil, or_false] at h
    · rcases h with h | h <;> have := hnat _ h <;> omega
    · rcases h with h | h | h <;> have := hnat _ h <;> omega
    · rcases h with h | h | h | h <;> have := hnat _ h <;> omega
  · rintro rfl
    have hval : c.val.toNat ≤ 127 := Nat.lt_succ_iff.1 hd
    rw [String.utf8EncodeChar, if_pos hval]
    exact List.mem_singleton.2 rfl

theorem lineFeed_mem_encode_iff {c : Char} : lineFeed ∈ String.utf8EncodeChar c ↔ c = '\n' :=
  ascii_mem_encode_iff (d := '\n') (by decide)

theorem lineFeed_mem_utf8_iff {cs : Text} : lineFeed ∈ utf8 cs ↔ '\n' ∈ cs := by
  simp [utf8, List.mem_flatMap, lineFeed_mem_encode_iff]

theorem count_utf8 (cs : Text) : (utf8 cs).count lineFeed = cs.count '\n' := by
  induction cs with
  | nil => rfl
  | cons c cs ih =>
    rw [utf8_cons, List.count_append, ih, List.count_cons, Nat.add_comm]
    by_cases hc : c = '\n'
    · subst hc
      rfl
    · have hnone := List.count_eq_zero.2 fun h => hc (lineFeed_mem_encode_iff.1 h)
      simp [hnone, hc]

/-- **A byte of a text is a line feed iff the character at its offset is one.** -/
theorem utf8_eq_lineFeed_iff {cs : Text} {j : Nat} :
    (utf8 cs)[j]? = some lineFeed ↔ ∃ a b, cs = a ++ '\n' :: b ∧ bytes a = j := by
  constructor
  · intro h
    induction cs generalizing j with
    | nil => simp at h
    | cons c cs ih =>
      rw [utf8_cons] at h
      by_cases hj : j < (String.utf8EncodeChar c).length
      · rw [List.getElem?_append_left hj] at h
        obtain rfl := lineFeed_mem_encode_iff.1 (List.mem_of_getElem? h)
        exact ⟨[], cs, rfl, (Nat.lt_one_iff.1 hj).symm⟩
      · rw [List.getElem?_append_right (Nat.not_lt.1 hj)] at h
        obtain ⟨a, b, rfl, ha⟩ := ih h
        rw [String.length_utf8EncodeChar] at hj ha
        exact ⟨c :: a, b, rfl, by rw [bytes_cons]; omega⟩
  · rintro ⟨a, b, rfl, rfl⟩
    rw [utf8_append, ← length_utf8, List.getElem?_append_right le_rfl, Nat.sub_self]
    rfl

/-! ## Characters in their places -/

/-- The characters of a text with their offsets, when the first of them is at `offset`. -/
def placed (offset : Nat) : Text → List (Nat × Char)
  | [] => []
  | c :: cs => (offset, c) :: placed (offset + c.utf8Size) cs

/-- The UTF-16 length of the characters that start before the offset `o`, after all line feeds
    before it. -/
def unitsAfterBreak (cs : Text) (o : Nat) : Nat :=
  (((placed 0 cs).filter fun x => x.1 < o ∧ ∀ j < o, (utf8 cs)[j]? = some lineFeed → j < x.1).map
    fun x => charUnits x.2).sum

theorem placed_append (offset : Nat) (a b : Text) :
    placed offset (a ++ b) = placed offset a ++ placed (offset + bytes a) b := by
  induction a generalizing offset with
  | nil => rfl
  | cons c a ih => simp [placed, ih, Nat.add_assoc]

theorem le_of_mem_placed {offset : Nat} {cs : Text} {x : Nat × Char} (h : x ∈ placed offset cs) :
    offset ≤ x.1 ∧ x.1 < offset + bytes cs := by
  induction cs generalizing offset with
  | nil => simp [placed] at h
  | cons c cs ih =>
    have hc := c.utf8Size_pos
    rw [bytes_cons]
    rcases List.mem_cons.1 h with rfl | h
    · exact ⟨le_rfl, by dsimp only; omega⟩
    · have := ih h
      omega

/-- Characters that start before an offset are counted by their units. -/
theorem units_placed_before (offset : Nat) (cs : Text) (n : Nat) :
    (((placed offset cs).filter fun x => x.1 < offset + n).map fun x => charUnits x.2).sum =
      Line.unitsBefore cs n := by
  induction cs generalizing offset n with
  | nil => rfl
  | cons c cs ih =>
    rw [Line.unitsBefore]
    by_cases hn : n = 0
    · have hnone : (placed offset (c :: cs)).filter (fun x => x.1 < offset + n) = [] := by
        rw [List.filter_eq_nil_iff]
        intro x hx
        have := (le_of_mem_placed hx).1
        simp only [decide_eq_true_eq]
        omega
      rw [if_pos hn, hnone, List.map_nil, List.sum_nil]
    · -- The offsets of the characters behind the first are not before its end.
      have htail : (placed (offset + c.utf8Size) cs).filter (fun x => x.1 < offset + n) =
          (placed (offset + c.utf8Size) cs).filter
            (fun x => x.1 < offset + c.utf8Size + (n - c.utf8Size)) := by
        refine List.filter_congr fun x hx => ?_
        have := (le_of_mem_placed hx).1
        rw [decide_eq_decide]
        omega
      rw [if_neg hn, placed, List.filter_cons, if_pos (by simp only [decide_eq_true_eq]; omega), htail,
        List.map_cons, List.sum_cons, ih]

end Text

namespace Line

/-! ## Lines and line feeds -/

/-- The `k`-th line of a text that starts at `start`: it is the part of the text after the `k`-th
    line feed, up to the next. -/
structure Stands (start : Nat) (cs : Text) (k : Nat) (l : Line) (before after : Text) : Prop where
  text : cs = before ++ l.content ++ after
  start : l.start = start + Text.bytes before
  count : before.count '\n' = k
  content : '\n' ∉ l.content
  ends : before = [] ∨ ∃ b, before = b ++ ['\n']

section
variable {start : Nat} {cs : Text} {ls : List Line}

theorem bytes_lineFeed (cs : Text) : Text.bytes ('\n' :: cs) = 1 + Text.bytes cs := rfl

/-- **Every line stands after as many line feeds as there are lines before it.** -/
theorem Splits.stands (h : Splits start cs ls) {k : Nat} {l : Line} (hk : ls[k]? = some l) :
    ∃ before after, Stands start cs k l before after := by
  induction h generalizing k with
  | last h =>
    cases k with
    | zero =>
      cases hk
      exact ⟨[], [], by simp, rfl, rfl, h, .inl rfl⟩
    | succ k => cases hk
  | @line start content cs ls h _ ih =>
    cases k with
    | zero =>
      cases hk
      exact ⟨[], '\n' :: cs, by simp, rfl, rfl, h, .inl rfl⟩
    | succ k =>
      obtain ⟨before, after, hl⟩ := ih hk
      refine ⟨content ++ '\n' :: before, after, by simp [hl.text], ?_, ?_, hl.content, .inr ?_⟩
      · rw [hl.start, Text.bytes_append, bytes_lineFeed]
        omega
      · rw [List.count_append, List.count_eq_zero.2 h, List.count_cons_self, hl.count, Nat.zero_add]
      · rcases hl.ends with rfl | ⟨b, rfl⟩
        · exact ⟨content, rfl⟩
        · exact ⟨content ++ '\n' :: b, by simp⟩

theorem Splits.start_mem (h : Splits start cs ls) : start ∈ ls.map Line.start := by
  obtain ⟨content, rest, rfl⟩ := h.head
  exact List.mem_cons_self

/-- A line starts after every line feed. -/
theorem Splits.mem_starts (h : Splits start cs ls) {a b : Text} (hcs : cs = a ++ '\n' :: b) :
    start + Text.bytes a + 1 ∈ ls.map Line.start := by
  induction h generalizing a with
  | last h => exact absurd (hcs ▸ List.mem_append_right _ List.mem_cons_self) h
  | @line start content cs ls h hs ih =>
    rw [List.map_cons]
    refine List.mem_cons_of_mem _ ?_
    -- The line feed is the one that ends the first line, or it stands behind that one.
    rcases List.append_eq_append_iff.1 hcs with ⟨m, rfl, hm⟩ | ⟨m, rfl, hm⟩
    · cases m with
      | nil => simpa using hs.start_mem
      | cons c m =>
        obtain ⟨rfl, hrest⟩ := List.cons.inj hm
        have hmem := ih hrest
        rw [Text.bytes_append, bytes_lineFeed, ← Nat.add_assoc, ← Nat.add_assoc]
        exact hmem
    · cases m with
      | nil => simpa using hs.start_mem
      | cons c m =>
        obtain ⟨rfl, -⟩ := List.cons.inj hm
        exact absurd (List.mem_append_right _ List.mem_cons_self) h

/-- Lines start where the text starts and after its line feeds. -/
theorem Splits.mem_starts_iff (h : Splits start cs ls) {n : Nat} : n ∈ ls.map Line.start ↔
    n = start ∨ ∃ a b, cs = a ++ '\n' :: b ∧ n = start + Text.bytes a + 1 := by
  constructor
  · intro hn
    obtain ⟨l, hl, rfl⟩ := List.mem_map.1 hn
    obtain ⟨k, hk⟩ := List.mem_iff_getElem?.1 hl
    obtain ⟨before, after, hstands⟩ := h.stands hk
    rcases hstands.ends with rfl | ⟨b, rfl⟩
    · exact .inl hstands.start
    · refine .inr ⟨b, l.content ++ after, by simp [hstands.text], ?_⟩
      rw [hstands.start, Text.bytes_append, bytes_lineFeed, Text.bytes_nil]
      omega
  · rintro (rfl | ⟨a, b, hcs, rfl⟩)
    · exact h.start_mem
    · exact h.mem_starts hcs

end

/-! ## Counting up to an offset of a line -/

section
variable {cs before after : Text} {k o : Nat} {l : Line}

/-- The line feeds up to an offset of a line are those before the line. -/
theorem Stands.count_take (h : Stands 0 cs k l before after) (hlo : l.start ≤ o)
    (hhi : o ≤ l.start + Text.bytes l.content) :
    ((Text.utf8 cs).take o).count Text.lineFeed = k := by
  obtain ⟨m, rfl⟩ := Nat.exists_eq_add_of_le hlo
  have hm : m ≤ (Text.utf8 l.content).length := by rw [Text.length_utf8]; omega
  have hnone : ((Text.utf8 l.content).take m).count Text.lineFeed = 0 :=
    List.count_eq_zero.2 fun hmem =>
      h.content (Text.lineFeed_mem_utf8_iff.1 (List.mem_of_mem_take hmem))
  rw [h.text, h.start, Nat.zero_add, List.append_assoc, Text.utf8_append, Text.utf8_append,
    ← Text.length_utf8, List.take_length_add_append, List.take_append_of_le_length hm,
    List.count_append, hnone, Text.count_utf8, h.count]
  rfl

/-- The line feeds up to an offset of a line stand before the line. -/
theorem Stands.lineFeed_lt (h : Stands 0 cs k l before after)
    (hhi : o ≤ l.start + Text.bytes l.content)
    {j : Nat} (hj : j < o) (hfeed : (Text.utf8 cs)[j]? = some Text.lineFeed) : j < l.start := by
  by_contra hle
  obtain ⟨m, rfl⟩ := Nat.exists_eq_add_of_le (Nat.not_lt.1 hle)
  have hm : m < (Text.utf8 l.content).length := by rw [Text.length_utf8]; omega
  rw [h.text, h.start, Nat.zero_add, List.append_assoc, Text.utf8_append, Text.utf8_append,
    ← Text.length_utf8, List.getElem?_append_right (Nat.le_add_right _ _), Nat.add_sub_cancel_left,
    List.getElem?_append_left hm] at hfeed
  exact h.content (Text.lineFeed_mem_utf8_iff.1 (List.mem_of_getElem? hfeed))

/-- A character before a line is not behind all line feeds before it. -/
theorem Stands.exists_lineFeed (h : Stands 0 cs k l before after) (hlo : l.start ≤ o)
    {x : Nat × Char} (hx : x ∈ Text.placed 0 before) :
    ∃ j < o, (Text.utf8 cs)[j]? = some Text.lineFeed ∧ x.1 ≤ j := by
  have hlt := (Text.le_of_mem_placed hx).2
  rcases h.ends with rfl | ⟨b, rfl⟩
  · simp [Text.placed] at hx
  · have hstart := h.start
    rw [Text.bytes_append, bytes_lineFeed, Text.bytes_nil] at hlt hstart
    refine ⟨Text.bytes
      b, by omega, Text.utf8_eq_lineFeed_iff.2 ⟨b, l.content ++ after, ?_, rfl⟩, by omega⟩
    rw [h.text]
    simp

/-- The characters of a line before an offset are those after the last line feed before the offset. -/
theorem Stands.unitsAfterBreak (h : Stands 0 cs k l before after) (hlo : l.start ≤ o)
    (hhi : o ≤ l.start + Text.bytes l.content) :
    Text.unitsAfterBreak cs o = unitsBefore l.content (o - l.start) := by
  have hstart : Text.bytes before = l.start := by rw [h.start, Nat.zero_add]
  have hbefore : (Text.placed 0 before).filter (fun x => x.1 < o ∧
      ∀ j < o, (Text.utf8 cs)[j]? = some Text.lineFeed → j < x.1) = [] := by
    rw [List.filter_eq_nil_iff]
    intro x hx
    obtain ⟨j, hj, hfeed, hle⟩ := h.exists_lineFeed hlo hx
    simp only [decide_eq_true_eq]
    rintro ⟨-, hall⟩
    exact Nat.not_lt.2 hle (hall j hj hfeed)
  have hafter : (Text.placed (l.start + Text.bytes l.content) after).filter (fun x => x.1 < o ∧
      ∀ j < o, (Text.utf8 cs)[j]? = some Text.lineFeed → j < x.1) = [] := by
    rw [List.filter_eq_nil_iff]
    intro x hx
    have := (Text.le_of_mem_placed hx).1
    simp only [decide_eq_true_eq]
    omega
  have hline : (Text.placed l.start l.content).filter (fun x => x.1 < o ∧
      ∀ j < o, (Text.utf8 cs)[j]? = some Text.lineFeed → j < x.1) =
      (Text.placed l.start l.content).filter (fun x => x.1 < l.start + (o - l.start)) := by
    refine List.filter_congr fun x hx => ?_
    have hle := (Text.le_of_mem_placed hx).1
    rw [decide_eq_decide, Nat.add_sub_cancel' hlo]
    refine and_iff_left_of_imp fun _ j hj hfeed => ?_
    exact lt_of_lt_of_le (h.lineFeed_lt hhi hj hfeed) hle
  have hplaced : Text.placed 0 cs = Text.placed 0 before ++ Text.placed l.start l.content ++
      Text.placed (l.start + Text.bytes l.content) after := by
    rw [h.text, Text.placed_append, Text.placed_append, Text.bytes_append, Nat.zero_add, hstart]
    simp
  rw [Text.unitsAfterBreak, hplaced, List.filter_append, List.filter_append, hbefore, hafter, hline,
    List.nil_append, List.append_nil, Text.units_placed_before]

end

end Line

namespace LineIndex

/-- **Positions are counted.**  The line of an offset is the number of line feeds among the bytes
    before it, and its column the UTF-16 length of the characters that start after the last of them
    and before the offset, which is cut to the length of the text.  The table of line starts is
    strictly increasing and holds 0 and the offsets that follow a line feed. -/
theorem positionAt_counts (cs : Text) :
    (∀ o, ((ofText cs).positionAt o).line = ((Text.utf8 cs).take (min o (Text.bytes cs))).count
      Text.lineFeed ∧
      ((ofText cs).positionAt o).character = Text.unitsAfterBreak cs (min o (Text.bytes cs))) ∧
    (ofText cs).starts.Pairwise (· < ·) ∧
    ∀ n, n ∈ (ofText cs).starts ↔ n = 0 ∨ ∃ i, (Text.utf8 cs)[i]? = some Text.lineFeed ∧
      n = i + 1 := by
  refine ⟨fun o => ?_, (splits_ofText cs).starts_lt, fun n => ?_⟩
  · obtain ⟨k, l, hk, hlo, hhi⟩ := exists_line cs o
    obtain ⟨before, after, hstands⟩ := (splits_ofText cs).stands hk
    rw [← positionAt_min, positionAt_line hk hlo hhi, hstands.count_take hlo hhi,
      hstands.unitsAfterBreak hlo hhi]
    exact ⟨rfl, rfl⟩
  · rw [starts, (splits_ofText cs).mem_starts_iff]
    refine or_congr_right ?_
    constructor
    · rintro ⟨a, b, hcs, rfl⟩
      exact ⟨Text.bytes a, Text.utf8_eq_lineFeed_iff.2 ⟨a, b, hcs, rfl⟩, by omega⟩
    · rintro ⟨i, hi, rfl⟩
      obtain ⟨a, b, hcs, rfl⟩ := Text.utf8_eq_lineFeed_iff.1 hi
      exact ⟨a, b, hcs, by omega⟩

-- An offset inside a character counts that character; one at a line feed does not count the line feed.
example : (ofText ['é', '\n', '😀', 'b', '\n']).positionAt 4 = ⟨1, 2⟩ ∧
    (ofText ['é', '\n', '😀', 'b', '\n']).positionAt 2 = ⟨0, 1⟩ := by decide

end LineIndex

end AnnotatedJson
