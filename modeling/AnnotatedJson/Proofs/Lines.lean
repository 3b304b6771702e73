/-
  Lines, offsets and positions.

  * `Text.IsCeil`: the least character boundary that is not before an offset;
  * `Line.Splits`: a text cut into lines, and `Line.splits_split`: every text is cut so;
  * `LineIndex.offset?_boundary`: positions stand for character boundaries;
  * `LineIndex.offset?_positionAt`: the position of an offset stands for the least boundary
    that is not before it;
  * `Document.Indexed` and the same facts about a document, and `Document.spanOf`: the span that
    a range stands for.
-/
import Mathlib
import AnnotatedJson.Document.Basic
import AnnotatedJson.Proofs.Boundary
import AnnotatedJson.Proofs.HostTree

namespace AnnotatedJson

namespace Text

/-! ## Boundaries from an offset on -/

/-- `m` is the least character boundary that is not before `n`. -/
structure IsCeil (cs : Text) (n m : Nat) : Prop where
  le : n ≤ m
  boundary : isBoundary cs m = true
  least : ∀ b, isBoundary cs b = true → n ≤ b → m ≤ b

theorem isBoundary_zero (cs : Text) : isBoundary cs 0 = true :=
  isBoundary_iff.2 ⟨[], cs, rfl, rfl⟩

theorem isBoundary_bytes (cs : Text) : isBoundary cs (bytes cs) = true :=
  isBoundary_iff.2 ⟨cs, [], (List.append_nil cs).symm, rfl⟩

theorem isBoundary_cons_iff {c : Char} {cs : Text} {n : Nat} :
    isBoundary (c :: cs) n = true ↔ n = 0 ∨ ∃ m, n = c.utf8Size + m ∧ isBoundary cs m = true := by
  constructor
  · intro h
    obtain ⟨a, b, hab, rfl⟩ := isBoundary_iff.1 h
    cases a with
    | nil => exact .inl rfl
    | cons d a =>
      obtain ⟨rfl, rfl⟩ := List.cons.inj hab
      exact .inr ⟨bytes a, rfl, isBoundary_append a b⟩
  · rintro (rfl | ⟨m, rfl, hm⟩)
    · exact isBoundary_zero _
    · obtain ⟨a, b, rfl, rfl⟩ := isBoundary_iff.1 hm
      exact isBoundary_iff.2 ⟨c :: a, b, rfl, rfl⟩

theorem IsCeil.mono {cs : Text} {n n' m m' : Nat} (h : IsCeil cs n m) (h' : IsCeil cs n' m')
    (hn : n ≤ n') : m ≤ m' := h.least m' h'.boundary (hn.trans h'.le)

theorem isCeil_self {cs : Text} {n : Nat} (h : isBoundary cs n = true) : IsCeil cs n n :=
  ⟨le_rfl, h, fun _ _ hb => hb⟩

theorem IsCeil.cons {c : Char} {cs : Text} {n m : Nat} (hn : 0 < n)
    (h : IsCeil cs (n - c.utf8Size) m) : IsCeil (c :: cs) n (c.utf8Size + m) := by
  refine ⟨by have := h.le; omega, isBoundary_cons_iff.2 (.inr ⟨m, rfl, h.boundary⟩), ?_⟩
  intro b hb hnb
  rcases isBoundary_cons_iff.1 hb with rfl | ⟨k, rfl, hk⟩
  · omega
  · have := h.least k hk (by omega)
    omega

/-- The least boundary in a part of a text is the least boundary in the text. -/
theorem IsCeil.part {part : Text} {n m : Nat} (h : IsCeil part n m) (before after : Text) :
    IsCeil (before ++ part ++ after) (bytes before + n) (bytes before + m) := by
  obtain ⟨a, b, rfl, rfl⟩ := isBoundary_iff.1 h.boundary
  refine ⟨Nat.add_le_add_left h.le _, ?_, fun k hk hle => ?_⟩
  · exact isBoundary_iff.2 ⟨before ++ a, b ++ after, by simp, by simp⟩
  · by_contra hlt
    obtain ⟨x, y, hxy, rfl⟩ := isBoundary_iff.1 hk
    -- The boundary lies before the one found, so it lies in the part.
    rw [List.append_assoc before] at hxy
    obtain ⟨u, rfl, hu⟩ := prefix_of_bytes_le hxy (by omega)
    rw [bytes_append] at hle hlt
    rw [List.append_assoc a] at hu
    obtain ⟨v, rfl, -⟩ := prefix_of_bytes_le hu.symm (by omega)
    have := h.least (bytes u) (isBoundary_iff.2 ⟨u, v ++ b, by simp, rfl⟩) (by omega)
    omega

end Text

namespace Line

/-! ## Columns -/

theorem charUnits_pos (c : Char) : 0 < Text.charUnits c := by
  unfold Text.charUnits
  split <;> omega

theorem bytesBefore_boundary (cs : Text) (k : Nat) :
    Text.isBoundary cs (bytesBefore cs k) = true := by
  induction cs generalizing k with
  | nil => rfl
  | cons c cs ih =>
    rw [bytesBefore]
    split
    · exact Text.isBoundary_zero _
    · exact Text.isBoundary_cons_iff.2 (.inr ⟨_, rfl, ih _⟩)

theorem bytesBefore_unitsBefore (cs : Text) (n : Nat) (hn : n ≤ Text.bytes cs) :
    Text.IsCeil cs n (bytesBefore cs (unitsBefore cs n)) := by
  induction cs generalizing n with
  | nil =>
    obtain rfl := Nat.le_zero.1 hn
    exact Text.isCeil_self rfl
  | cons c cs ih =>
    rw [unitsBefore]
    split
    next h =>
      subst h
      exact Text.isCeil_self (Text.isBoundary_zero _)
    next h =>
      have hc := charUnits_pos c
      rw [bytesBefore, if_neg (by omega), Nat.add_sub_cancel_left]
      rw [Text.bytes_cons] at hn
      exact (ih _ (by omega)).cons (Nat.pos_of_ne_zero h)

/-! ## Lines -/

/-- A text, from an offset on, cut into lines. -/
inductive Splits : Nat → Text → List Line → Prop
  | last {start : Nat} {content : Text} (h : '\n' ∉ content) :
    Splits start content [⟨start, content⟩]
  | line {start : Nat} {content cs : Text} {ls : List Line} (h : '\n' ∉ content)
    (hs : Splits (start + Text.bytes content + 1) cs ls) :
    Splits start (content ++ '\n' :: cs) (⟨start, content⟩ :: ls)

theorem splits_split (start : Nat) (seen cs : Text) (hseen : '\n' ∉ seen) :
    Splits start (seen.reverse ++ cs) (split start seen (start + Text.bytes seen.reverse) cs) := by
  induction cs generalizing start seen with
  | nil =>
    rw [split, List.append_nil]
    exact .last (by simpa using hseen)
  | cons c cs ih =>
    rw [split]
    split
    next hc =>
      subst hc
      exact .line (by simpa using hseen) (ih _ [] (by simp))
    next hc =>
      have hnext := ih start (c :: seen) (by simpa [hseen] using fun h => hc h.symm)
      simpa [Nat.add_assoc] using hnext

variable {start : Nat} {cs : Text} {ls : List Line}

theorem Splits.head (h : Splits start cs ls) : ∃ content rest, ls = ⟨start, content⟩ :: rest := by
  cases h with
  | last => exact ⟨_, _, rfl⟩
  | line => exact ⟨_, _, rfl⟩

/-- A line is the part of the text at its start. -/
theorem Splits.part (h : Splits start cs ls) {l : Line} (hl : l ∈ ls) :
    ∃ before after, cs = before ++ l.content ++ after ∧ l.start = start + Text.bytes before := by
  induction h with
  | last =>
    cases List.mem_singleton.1 hl
    exact ⟨[], [], by simp, rfl⟩
  | @line start content cs ls _ _ ih =>
    rcases List.mem_cons.1 hl with rfl | hl
    · exact ⟨[], '\n' :: cs, by simp, rfl⟩
    · obtain ⟨before, after, rfl, hstart⟩ := ih hl
      refine ⟨content ++ '\n' :: before, after, by simp, ?_⟩
      rw [hstart, Text.bytes_append, Text.bytes_cons, show ('\n' : Char).utf8Size = 1 from rfl]
      omega

theorem Splits.start_le (h : Splits start cs ls) {l : Line} (hl : l ∈ ls) : start ≤ l.start := by
  obtain ⟨before, after, -, hstart⟩ := h.part hl
  omega

/-- A line ends before the next one starts. -/
theorem Splits.lt_of_lt (h : Splits start cs ls) {i j : Nat} {l m : Line} (hi : ls[i]? = some l)
    (hj : ls[j]? = some m) (hij : i < j) : l.start + Text.bytes l.content < m.start := by
  induction h generalizing i j with
  | last h =>
    obtain ⟨k, rfl⟩ := Nat.exists_eq_add_of_lt hij
    simp at hj
  | @line start content cs ls h hs ih =>
    obtain ⟨j, rfl⟩ : ∃ k, j = k + 1 := ⟨j - 1, by omega⟩
    rw [List.getElem?_cons_succ] at hj
    cases i with
    | zero =>
      cases hi
      have := hs.start_le (List.mem_of_getElem? hj)
      exact this
    | succ i => exact ih (by simpa using hi) hj (by omega)

theorem Splits.starts_lt (h : Splits start cs ls) : (ls.map Line.start).Pairwise (· < ·) := by
  rw [List.pairwise_map, List.pairwise_iff_getElem]
  intro i j hi hj hij
  have := h.lt_of_lt (List.getElem?_eq_getElem hi) (List.getElem?_eq_getElem hj) hij
  omega

/-- The line that an offset is counted in holds it. -/
theorem Splits.holds (h : Splits start cs ls) {o : Nat} (hlo : start ≤ o)
    (hhi : o ≤ start + Text.bytes cs) :
    ∃ k l, (ls.takeWhile fun l => l.start ≤ o).length = k + 1 ∧ ls[k]? = some l ∧
      l.start ≤ o ∧ o ≤ l.start + Text.bytes l.content := by
  induction h with
  | @last start content _ => exact ⟨0, ⟨start, content⟩, by simp [hlo], rfl, hlo, hhi⟩
  | @line start content cs ls _ hs ih =>
    rw [Text.bytes_append, Text.bytes_cons, show ('\n' : Char).utf8Size = 1 from rfl] at hhi
    by_cases ho : o ≤ start + Text.bytes content
    · obtain ⟨content', rest, rfl⟩ := hs.head
      refine ⟨0, ⟨start, content⟩, ?_, rfl, hlo, ho⟩
      simp [hlo, show ¬ start + Text.bytes content + 1 ≤ o by omega]
    · obtain ⟨k, l, hk, hl, hlo', hhi'⟩ := ih (by omega) (by omega)
      exact ⟨k + 1, l, by simpa [hlo] using hk, hl, hlo', hhi'⟩

end Line

namespace LineIndex

theorem splits_ofText (cs : Text) : Line.Splits 0 cs (ofText cs).lines :=
  Line.splits_split 0 [] cs (by simp)

/-! ## The search for a line -/

section
variable {xs : List Nat} {n : Nat}

/-- What a spot says of the number that was searched. -/
def Spot.Right (xs : List Nat) (n : Nat) : Spot → Prop
  | .hit i => xs[i]? = some n
  | .miss i => i ≤ xs.length ∧ (∀ j x, xs[j]? = some x → (j < i → x < n) ∧ (i ≤ j → n < x))

theorem lt_of_getElem? (hs : xs.Pairwise (· < ·)) {i j x y : Nat} (hi : xs[i]? = some x)
    (hj : xs[j]? = some y) (hij : i < j) : x < y := by
  obtain ⟨hi', rfl⟩ := List.getElem?_eq_some_iff.1 hi
  obtain ⟨hj', rfl⟩ := List.getElem?_eq_some_iff.1 hj
  exact List.pairwise_iff_getElem.1 hs i j hi' hj' hij

/-- The search is right.  By induction on the fuel: all before `lo` is smaller and all from `hi` on
    is greater, and a halving keeps that. -/
theorem bisect_right (hs : xs.Pairwise (· < ·)) {fuel lo hi : Nat} (hfuel : hi - lo ≤ fuel)
    (hle : lo ≤ hi) (hhi : hi ≤ xs.length) (hbefore : ∀ j x, xs[j]? = some x → j < lo → x < n)
    (hafter : ∀ j x, xs[j]? = some x → hi ≤ j → n < x) : (bisect xs n fuel lo hi).Right xs n := by
  induction fuel generalizing lo hi with
  | zero =>
    obtain rfl : lo = hi := by omega
    exact ⟨hhi, fun j x hx => ⟨hbefore j x hx, hafter j x hx⟩⟩
  | succ fuel ih =>
    rw [bisect]
    split
    next hlt =>
      have hmiddle : (lo + hi) / 2 < xs.length := by omega
      have hx := List.getElem?_eq_getElem hmiddle
      dsimp only
      rw [hx]
      dsimp only
      split
      next heq => exact heq ▸ hx
      next hne =>
        split
        next hsmall =>
          refine ih (by omega) (by omega) hhi (fun j y hy hj => ?_) hafter
          rcases Nat.lt_succ_iff_lt_or_eq.1 hj with hj | rfl
          · exact (lt_of_getElem? hs hy hx hj).trans hsmall
          · cases hx.symm.trans hy
            exact hsmall
        next hgreat =>
          refine ih (by omega) (by omega) (by omega) hbefore fun j y hy hj => ?_
          rcases Nat.lt_or_eq_of_le hj with hj | rfl
          · exact (by omega : n < xs[(lo + hi) / 2]).trans (lt_of_getElem? hs hx hy hj)
          · cases hx.symm.trans hy
            omega
    next hge =>
      obtain rfl : lo = hi := by omega
      exact ⟨hhi, fun j x hx => ⟨hbefore j x hx, hafter j x hx⟩⟩

end

theorem length_takeWhile_eq {α : Type} {p : α → Bool} {xs : List α} {k : Nat} (hk : k ≤ xs.length)
    (hbefore : ∀ j x, xs[j]? = some x → j < k → p x = true)
    (hat : ∀ x, xs[k]? = some x → p x = false) :
    (xs.takeWhile p).length = k := by
  induction xs generalizing k with
  | nil => exact (Nat.le_zero.1 hk).symm
  | cons x xs ih =>
    cases k with
    | zero => simp [hat x rfl]
    | succ k =>
      rw [List.takeWhile_cons_of_pos (hbefore 0 x rfl (Nat.succ_pos k)), List.length_cons,
        ih (Nat.le_of_succ_le_succ hk) (fun j y hy hj => hbefore (j + 1) y hy (by omega)) hat]

/-- **The search finds the last line that does not start after the offset.** -/
theorem lineOf_eq (cs : Text) (o : Nat) :
    (ofText cs).lineOf o = ((ofText cs).lines.takeWhile fun l => l.start ≤ o).length - 1 := by
  have hsorted : (ofText cs).starts.Pairwise (· < ·) := (splits_ofText cs).starts_lt
  have hright :
      (bisect (ofText cs).starts o (ofText cs).starts.length 0 (ofText cs).starts.length).Right
      (ofText cs).starts o :=
    bisect_right hsorted (by omega) (Nat.zero_le _) le_rfl
      (fun _ _ _ h => absurd h (Nat.not_lt_zero _))
      fun j x hx hj => absurd (List.getElem?_eq_some_iff.1 hx).1 (Nat.not_lt.2 hj)
  have hstart : ∀ (j : Nat) (l : Line), (ofText cs).lines[j]? = some l →
      (ofText cs).starts[j]? = some l.start := by
    intro j l hl
    rw [starts, List.getElem?_map, hl, Option.map_some]
  have hlength : (ofText cs).starts.length = (ofText cs).lines.length := List.length_map _
  unfold lineOf
  split
  next k hk =>
    rw [hk] at hright
    have hlt := (List.getElem?_eq_some_iff.1 hright).1
    rw [length_takeWhile_eq (k := k + 1) (by omega)]
    · rfl
    · intro j l hl hj
      rcases Nat.lt_succ_iff_lt_or_eq.1 hj with hj | rfl
      · simpa using (lt_of_getElem? hsorted (hstart j l hl) hright hj).le
      · cases hright.symm.trans (hstart j l hl)
        simp
    · intro l hl
      simpa using lt_of_getElem? hsorted hright (hstart _ l hl) (Nat.lt_succ_self k)
  next k hk =>
    rw [hk] at hright
    rw [length_takeWhile_eq (hlength ▸ hright.1)]
    · intro j l hl hj
      simpa using ((hright.2 j _ (hstart j l hl)).1 hj).le
    · intro l hl
      simpa using (hright.2 k _ (hstart k l hl)).2 le_rfl

theorem offset?_boundary {cs : Text} {p : Position} {o : Nat} (h : (ofText cs).offset? p = some o) :
    Text.isBoundary cs o = true := by
  obtain ⟨l, hl, rfl⟩ := Option.map_eq_some_iff.1 h
  obtain ⟨before, after, hcs, hstart⟩ := (splits_ofText cs).part (List.mem_of_getElem? hl)
  have hb := (Text.isCeil_self (Line.bytesBefore_boundary l.content p.character)).part before after
  rw [hstart, Nat.zero_add, hcs]
  exact hb.boundary

theorem offset?_positionAt (cs : Text) (n : Nat) (hn : n ≤ Text.bytes cs) :
    ∃ m, (ofText cs).offset? ((ofText cs).positionAt n) = some m ∧ Text.IsCeil cs n m := by
  obtain ⟨k, l, hk, hl, hlo, hhi⟩ := (splits_ofText cs).holds (Nat.zero_le n) (by omega)
  obtain ⟨before, after, hcs, hstart⟩ := (splits_ofText cs).part (List.mem_of_getElem? hl)
  have hmin : min n (ofText cs).bytes = n := Nat.min_eq_left hn
  have hline : (ofText cs).lineOf n = k := by simp [lineOf_eq, hk]
  have hpos : (ofText cs).positionAt n = ⟨k, Line.unitsBefore l.content (n - l.start)⟩ := by
    simp [positionAt, hmin, hline, hl]
  refine ⟨l.start + Line.bytesBefore l.content (Line.unitsBefore l.content (n - l.start)), ?_, ?_⟩
  · simp [hpos, offset?, hl]
  · have hceil := (Line.bytesBefore_unitsBefore l.content (n - l.start) (by omega)).part
      before after
    rw [Nat.zero_add] at hstart
    rw [← hstart, ← hcs, Nat.add_sub_cancel' hlo] at hceil
    exact hceil

end LineIndex

namespace Document

/-! ## Documents -/

/-- The index of a document is the index of its text. -/
def Indexed (d : Document) : Prop := d.index = LineIndex.ofText d.text

/-- The span that a range stands for. -/
def spanOf (d : Document) (r : Range) : Span := ⟨d.offsetAt r.start, d.offsetAt r.stop⟩

variable {d : Document}

theorem Indexed.offsetAt_boundary (h : d.Indexed) (p : Position) :
    Text.isBoundary d.text (d.offsetAt p) = true := by
  unfold offsetAt
  dsimp only
  cases ho : d.index.offset? p with
  | none => simpa using Text.isBoundary_bytes d.text
  | some o =>
    have hb : Text.isBoundary d.text o = true := LineIndex.offset?_boundary (h ▸ ho)
    rwa [Option.getD_some, Nat.min_eq_left (Text.isBoundary_le hb)]

theorem Indexed.offsetAt_positionAt (h : d.Indexed) {n : Nat} (hn : n ≤ Text.bytes d.text) :
    Text.IsCeil d.text n (d.offsetAt (d.positionAt n)) := by
  obtain ⟨m, hm, hceil⟩ := LineIndex.offset?_positionAt d.text n hn
  rw [← show d.index = LineIndex.ofText d.text from h] at hm
  have ho : d.offsetAt (d.positionAt n) = m := by
    unfold offsetAt positionAt
    dsimp only
    rw [hm, Option.getD_some]
    exact Nat.min_eq_left (Text.isBoundary_le hceil.boundary)
  rw [ho]
  exact hceil

theorem Indexed.offsetAt_positionAt_boundary (h : d.Indexed) {n : Nat}
    (hn : Text.isBoundary d.text n = true) : d.offsetAt (d.positionAt n) = n := by
  have hceil := h.offsetAt_positionAt (Text.isBoundary_le hn)
  exact le_antisymm (hceil.least n hn le_rfl) hceil.le

theorem Indexed.spanOf_within (h : d.Indexed) {s outer : Span} (hs : s.Within outer)
    (hstop : Text.isBoundary d.text outer.stop = true) : (d.spanOf (d.rangeOf s)).Within outer := by
  have hle := Text.isBoundary_le hstop
  have h₁ := h.offsetAt_positionAt (n := s.start) (by have := hs.ordered; have := hs.stop_le; omega)
  have h₂ := h.offsetAt_positionAt (n := s.stop) (by have := hs.stop_le; omega)
  exact ⟨hs.start_le.trans h₁.le, h₁.mono h₂ hs.ordered, h₂.least _ hstop hs.stop_le⟩

/-- An offset in a span, at which a position stands, is in the span's range. -/
theorem Indexed.spanOf_contains (h : d.Indexed) {s : Span} {p : Position}
    (hstart : s.start ≤ d.offsetAt p) (hstop : d.offsetAt p ≤ s.stop)
    (hle : s.stop ≤ Text.bytes d.text) :
    (d.spanOf (d.rangeOf s)).start ≤ d.offsetAt p ∧ s.stop ≤ (d.spanOf (d.rangeOf s)).stop := by
  have h₁ := h.offsetAt_positionAt (n := s.start) (by omega)
  have h₂ := h.offsetAt_positionAt (n := s.stop) hle
  exact ⟨h₁.least _ (h.offsetAt_boundary p) hstart, h₂.le⟩

end Document

end AnnotatedJson
