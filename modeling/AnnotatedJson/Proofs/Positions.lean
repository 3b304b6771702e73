/-
  Offsets and positions against each other.

  * `Text.IsColumnCeil`: the least column of a character boundary that is not before a column;
  * `LineIndex.positionAt_line`: the position of an offset, told from the line that holds it;
  * `LineIndex.positionAt_offset?`, `LineIndex.positionAt_mono`, `LineIndex.offset?_mono`: the way
    from a position to an offset and back, and the order of both;
  * `LineIndex.positions_inverse` puts these together.
-/
import Mathlib
import AnnotatedJson.Proofs.Lines

namespace AnnotatedJson

/-- Positions are compared by their lines first. -/
def Position.key (p : Position) : ℕ ×ₗ ℕ := toLex (p.line, p.character)

namespace Text

/-! ## Columns -/

/-- The first UTF-16 unit of a character, or the end, is at column `k`. -/
def IsColumn (cs : Text) (k : Nat) : Prop := ∃ a b, cs = a ++ b ∧ units a = k

/-- `m` is the least column of a character boundary that is not before column `k`. -/
structure IsColumnCeil (cs : Text) (k m : Nat) : Prop where
  le : k ≤ m
  column : IsColumn cs m
  least : ∀ j, IsColumn cs j → k ≤ j → m ≤ j

theorem isColumn_cons_iff {c : Char} {cs : Text} {k : Nat} :
    IsColumn (c :: cs) k ↔ k = 0 ∨ ∃ j, k = charUnits c + j ∧ IsColumn cs j := by
  constructor
  · rintro ⟨a, b, hab, rfl⟩
    cases a with
    | nil => exact Or.inl rfl
    | cons d a =>
      obtain ⟨rfl, rfl⟩ := List.cons.inj hab
      exact Or.inr ⟨units a, rfl, a, b, rfl, rfl⟩
  · rintro (rfl | ⟨j, rfl, a, b, rfl, rfl⟩)
    · exact ⟨[], c :: cs, rfl, rfl⟩
    · exact ⟨c :: a, b, rfl, rfl⟩

theorem IsColumnCeil.zero (cs : Text) : IsColumnCeil cs 0 0 :=
  ⟨le_rfl, ⟨[], cs, rfl, rfl⟩, fun _ _ h => h⟩

theorem IsColumnCeil.cons {c : Char} {cs : Text} {k m : Nat} (hk : 0 < k)
    (h : IsColumnCeil cs (k - charUnits c) m) : IsColumnCeil (c :: cs) k (charUnits c + m) := by
  refine ⟨by have := h.le; omega, isColumn_cons_iff.2 (Or.inr ⟨m, rfl, h.column⟩), ?_⟩
  intro j hj hkj
  rcases isColumn_cons_iff.1 hj with rfl | ⟨i, rfl, hi⟩
  · omega
  · have := h.least i hi (by omega)
    omega

end Text

namespace Line

theorem unitsBefore_mono (cs : Text) {m n : Nat} (h : m ≤ n) :
    unitsBefore cs m ≤ unitsBefore cs n := by
  induction cs generalizing m n with
  | nil => simp [unitsBefore]
  | cons c cs ih =>
    simp only [unitsBefore]
    by_cases hm : m = 0
    · simp [hm]
    · have := ih (show m - c.utf8Size ≤ n - c.utf8Size by omega)
      rw [if_neg hm, if_neg (by omega)]
      omega

theorem bytesBefore_mono (cs : Text) {j k : Nat} (h : j ≤ k) :
    bytesBefore cs j ≤ bytesBefore cs k := by
  induction cs generalizing j k with
  | nil => simp [bytesBefore]
  | cons c cs ih =>
    simp only [bytesBefore]
    by_cases hj : j = 0
    · simp [hj]
    · have := ih (show j - Text.charUnits c ≤ k - Text.charUnits c by omega)
      rw [if_neg hj, if_neg (by omega)]
      omega

theorem bytesBefore_le (cs : Text) (k : Nat) : bytesBefore cs k ≤ Text.bytes cs :=
  Text.isBoundary_le (bytesBefore_boundary cs k)

/-- A column and back: a column inside a character means the end of that character. -/
theorem unitsBefore_bytesBefore (cs : Text) (k : Nat) :
    Text.IsColumnCeil cs (min k (Text.units cs)) (unitsBefore cs (bytesBefore cs k)) := by
  induction cs generalizing k with
  | nil => simpa [unitsBefore, Text.units] using Text.IsColumnCeil.zero []
  | cons c cs ih =>
    rw [bytesBefore]
    by_cases hk : k = 0
    · simpa [hk, unitsBefore] using Text.IsColumnCeil.zero (c :: cs)
    · have hc := c.utf8Size_pos
      have hu := charUnits_pos c
      have hmin : min k (Text.units (c :: cs)) - Text.charUnits c =
          min (k - Text.charUnits c) (Text.units cs) := by
        simp only [Text.units]
        omega
      rw [if_neg hk, unitsBefore, if_neg (by omega), Nat.add_sub_cancel_left]
      refine Text.IsColumnCeil.cons (by simp only [Text.units]; omega) ?_
      rw [hmin]
      exact ih _

/-! ## Lines by their number -/

section
variable {start : Nat} {cs : Text} {ls : List Line}

theorem Splits.content_eq (h : Splits start cs ls) : ls.map content = cs.splitOn '\n' := by
  induction h with
  | last h => simp [List.splitOn_eq_singleton h]
  | @line start content cs ls h _ ih =>
    have hne : ∀ x ∈ content, (x == '\n') = false := by
      intro x hx
      simp only [beq_eq_false_iff_ne]
      rintro rfl
      exact h hx
    rw [List.map_cons, ih, List.splitOn, List.splitOn,
      List.splitOnP_append_cons_of_forall_mem hne '\n' (by simp)]

/-- An offset is counted in the line that holds it. -/
theorem Splits.counted (h : Splits start cs ls) {k o : Nat} {l : Line} (hk : ls[k]? = some l)
    (hlo : l.start ≤ o) (hhi : o ≤ l.start + Text.bytes l.content) :
    (ls.takeWhile fun l => l.start ≤ o).length = k + 1 := by
  have hend : o ≤ start + Text.bytes cs := by
    obtain ⟨before, after, rfl, hstart⟩ := h.part (List.mem_of_getElem? hk)
    simp only [Text.bytes_append]
    omega
  have hbegin := h.start_le (List.mem_of_getElem? hk)
  obtain ⟨j, m, hj, hm, hlo', hhi'⟩ := h.holds (by omega) hend
  rw [hj]
  rcases Nat.lt_trichotomy j k with hjk | rfl | hkj
  · have := h.lt_of_lt hm hk hjk
    omega
  · rfl
  · have := h.lt_of_lt hk hm hkj
    omega

end

end Line

namespace LineIndex

variable (cs : Text)

/-! ## From offsets to positions -/

theorem lines_content : (ofText cs).lines.map Line.content = cs.splitOn '\n' :=
  (splits_ofText cs).content_eq

variable {cs} in
/-- The position of an offset, told from the line that holds it. -/
theorem positionAt_line {k o : Nat} {l : Line} (hk : (ofText cs).lines[k]? = some l)
    (hlo : l.start ≤ o) (hhi : o ≤ l.start + Text.bytes l.content) :
    (ofText cs).positionAt o = ⟨k, Line.unitsBefore l.content (o - l.start)⟩ := by
  have hbytes : o ≤ (ofText cs).bytes := by
    obtain ⟨before, after, hcs, hstart⟩ := (splits_ofText cs).part (List.mem_of_getElem? hk)
    show o ≤ Text.bytes cs
    rw [hcs, Text.bytes_append, Text.bytes_append]
    omega
  have hline : (ofText cs).lineOf o = k := by
    simp [lineOf_eq, (splits_ofText cs).counted hk hlo hhi]
  simp [positionAt, Nat.min_eq_left hbytes, hline, hk]

theorem positionAt_min (n : Nat) :
    (ofText cs).positionAt (min n (Text.bytes cs)) = (ofText cs).positionAt n := by
  simp [positionAt, ofText]

theorem exists_line (n : Nat) : ∃ (k : Nat) (l : Line), (ofText cs).lines[k]? = some l ∧
    l.start ≤ min n (Text.bytes cs) ∧ min n (Text.bytes cs) ≤ l.start + Text.bytes l.content := by
  obtain ⟨k, l, -, hl, hlo, hhi⟩ :=
    (splits_ofText cs).holds (Nat.zero_le (min n (Text.bytes cs))) (by omega)
  exact ⟨k, l, hl, hlo, hhi⟩

theorem positionAt_mono : Monotone fun n => ((ofText cs).positionAt n).key := by
  intro m n hmn
  obtain ⟨j, l, hj, hlo, hhi⟩ := exists_line cs m
  obtain ⟨k, l', hk, hlo', hhi'⟩ := exists_line cs n
  have hm := (positionAt_min cs m).symm.trans (positionAt_line hj hlo hhi)
  have hn := (positionAt_min cs n).symm.trans (positionAt_line hk hlo' hhi')
  simp only [hm, hn, Position.key, Prod.Lex.toLex_le_toLex]
  rcases Nat.lt_trichotomy j k with hjk | rfl | hkj
  · exact Or.inl hjk
  · obtain rfl : l = l' := Option.some.inj (hj.symm.trans hk)
    exact Or.inr ⟨rfl, Line.unitsBefore_mono l.content (by omega)⟩
  · have := (splits_ofText cs).lt_of_lt hk hj hkj
    omega

/-- Different character boundaries have different positions. -/
theorem positionAt_strictMono :
    StrictMonoOn (fun n => ((ofText cs).positionAt n).key) {n | Text.isBoundary cs n = true} := by
  intro m hm n hn hmn
  refine lt_of_le_of_ne (positionAt_mono cs hmn.le) fun he => ?_
  obtain ⟨m', hm', hceil⟩ := offset?_positionAt cs m (Text.isBoundary_le hm)
  obtain ⟨n', hn', hceil'⟩ := offset?_positionAt cs n (Text.isBoundary_le hn)
  have hpos : (ofText cs).positionAt m = (ofText cs).positionAt n := by
    have := toLex.injective he
    cases hp : (ofText cs).positionAt m
    cases hq : (ofText cs).positionAt n
    simpa [hp, hq] using this
  -- A boundary is the least one that is not before it, so both stand for the same offset.
  have h₁ : m' = m := le_antisymm (hceil.least m hm le_rfl) hceil.le
  have h₂ : n' = n := le_antisymm (hceil'.least n hn le_rfl) hceil'.le
  rw [hpos, hn', h₂, Option.some.injEq, h₁] at hm'
  omega

/-! ## From positions to offsets -/

section
variable {cs} {p q : Position} {l : Line}

theorem offset?_line (hl : (ofText cs).lines[p.line]? = some l) :
    (ofText cs).offset? p = some (l.start + Line.bytesBefore l.content p.character) := by
  simp [offset?, hl]

theorem positionAt_offset? (hl : (ofText cs).lines[p.line]? = some l) :
    (ofText cs).positionAt (l.start + Line.bytesBefore l.content p.character) =
      ⟨p.line, Line.unitsBefore l.content (Line.bytesBefore l.content p.character)⟩ := by
  have := Line.bytesBefore_le l.content p.character
  rw [positionAt_line hl (by omega) (by omega), Nat.add_sub_cancel_left]

theorem offset?_mono {m : Line} (hp : (ofText cs).lines[p.line]? = some l)
    (hq : (ofText cs).lines[q.line]? = some m) (h : p.key ≤ q.key) :
    l.start + Line.bytesBefore l.content p.character ≤
      m.start + Line.bytesBefore m.content q.character := by
  have hle := Line.bytesBefore_le l.content p.character
  rcases Prod.Lex.toLex_le_toLex.1 h with hlt | ⟨heq, hchar⟩
  · have := (splits_ofText cs).lt_of_lt hp hq hlt
    omega
  · have hline : p.line = q.line := heq
    rw [hline] at hp
    obtain rfl : l = m := Option.some.inj (hp.symm.trans hq)
    have := Line.bytesBefore_mono l.content (show p.character ≤ q.character from hchar)
    omega

end

theorem exists_line_of_lt {k : Nat} (hk : k < (cs.splitOn '\n').length) :
    ∃ l, (ofText cs).lines[k]? = some l ∧ (cs.splitOn '\n')[k]? = some l.content := by
  rw [← lines_content, List.length_map] at hk
  refine ⟨(ofText cs).lines[k], List.getElem?_eq_getElem hk, ?_⟩
  rw [← lines_content, List.getElem?_map, List.getElem?_eq_getElem hk, Option.map_some]

/-- **Offsets and positions are inverse.**  The way from an offset to its position and back leads to
    the least character boundary that is not before it; the way from a position on a line of the
    text to its offset and back stays on the line and leads to the least column of a character
    boundary. Both ways keep the order, and no two boundaries have one position. -/
theorem positions_inverse :
    (∀ n, ∃ m, (ofText cs).offset? ((ofText cs).positionAt n) = some m ∧
      Text.IsCeil cs (min n (Text.bytes cs)) m) ∧
    (∀ k c content, (cs.splitOn '\n')[k]? = some content →
      ∃ o c', (ofText cs).offset? ⟨k, c⟩ = some o ∧ (ofText cs).positionAt o = ⟨k, c'⟩ ∧
        Text.IsColumnCeil content (min c (Text.units content)) c') ∧
    (Monotone fun n => ((ofText cs).positionAt n).key) ∧
    (∀ p q : Position, p.line < (cs.splitOn '\n').length → q.line < (cs.splitOn '\n').length →
      p.key ≤ q.key →
      ∃ m n, (ofText cs).offset? p = some m ∧ (ofText cs).offset? q = some n ∧ m ≤ n) ∧
    StrictMonoOn (fun n => ((ofText cs).positionAt n).key) {n | Text.isBoundary cs n = true} := by
  refine ⟨fun n => ?_, fun k c content hk => ?_, positionAt_mono cs, fun p q hp hq h => ?_,
    positionAt_strictMono cs⟩
  · rw [← positionAt_min]
    exact offset?_positionAt cs _ (Nat.min_le_right _ _)
  · obtain ⟨l, hl, hcontent⟩ := exists_line_of_lt cs (List.getElem?_eq_some_iff.1 hk).1
    obtain rfl : l.content = content := Option.some.inj (hcontent.symm.trans hk)
    exact ⟨_, _, offset?_line (p := ⟨k, c⟩) hl, positionAt_offset? (p := ⟨k, c⟩) hl,
      Line.unitsBefore_bytesBefore l.content c⟩
  · obtain ⟨l, hl, -⟩ := exists_line_of_lt cs hp
    obtain ⟨m, hm, -⟩ := exists_line_of_lt cs hq
    exact ⟨_, _, offset?_line hl, offset?_line hm, offset?_mono hl hm h⟩

-- A line feed, a character of two units, and a carriage return that belongs to its line.
example : (ofText ['a', '\n', '😀', '\r', '\n']).positionAt 3 = ⟨1, 2⟩ ∧
    (ofText ['a', '\n', '😀', '\r', '\n']).offset? ⟨1, 1⟩ = some 6 := by decide

end LineIndex

end AnnotatedJson
