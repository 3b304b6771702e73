/-
  Byte lengths and character boundaries.

  * `takeBytes_append`, `dropBytes_append`: a text cut at the length of a prefix;
  * `isBoundary_iff`: an offset is a boundary iff the text splits there;
  * `slice?_eq_some_iff`: the text of a span is the middle of a split in three.
-/
import Mathlib
import AnnotatedJson.Text.Basic

namespace AnnotatedJson.Text

/-! ## Lengths -/

@[simp] theorem bytes_nil : bytes [] = 0 := rfl

@[simp] theorem bytes_cons (c : Char) (cs : Text) : bytes (c :: cs) = c.utf8Size + bytes cs := rfl

@[simp] theorem bytes_append (a b : Text) : bytes (a ++ b) = bytes a + bytes b := by
  induction a with
  | nil => simp
  | cons c cs ih => simp only [List.cons_append, bytes_cons, ih]; omega

theorem bytes_pos {cs : Text} (h : cs ≠ []) : 0 < bytes cs := by
  obtain ⟨c, cs, rfl⟩ := List.exists_cons_of_ne_nil h
  have := c.utf8Size_pos
  rw [bytes_cons]; omega

/-! ## Cutting -/

theorem takeBytes_append (a b : Text) : takeBytes (bytes a) (a ++ b) = a := by
  induction a with
  | nil =>
    cases b with
    | nil => rfl
    | cons c cs =>
      have := c.utf8Size_pos
      rw [List.nil_append, takeBytes, if_neg (by simp only [bytes_nil]; omega)]
  | cons c cs ih =>
    rw [List.cons_append, takeBytes, bytes_cons, if_pos (by omega), Nat.add_sub_cancel_left, ih]

theorem dropBytes_append (a b : Text) : dropBytes (bytes a) (a ++ b) = b := by
  induction a with
  | nil =>
    cases b with
    | nil => rfl
    | cons c cs =>
      have := c.utf8Size_pos
      rw [List.nil_append, dropBytes, if_neg (by simp only [bytes_nil]; omega)]
  | cons c cs ih =>
    rw [List.cons_append, dropBytes, bytes_cons, if_pos (by omega), Nat.add_sub_cancel_left, ih]

theorem takeBytes_append_dropBytes (n : Nat) (cs : Text) :
    takeBytes n cs ++ dropBytes n cs = cs := by
  induction cs generalizing n with
  | nil => rfl
  | cons c cs ih =>
    rw [takeBytes, dropBytes]
    split
    · rw [List.cons_append, ih]
    · rfl

/-! ## Boundaries -/

/-- **A boundary is where the text splits.** -/
theorem isBoundary_iff {cs : Text} {n : Nat} :
    isBoundary cs n = true ↔ ∃ a b, cs = a ++ b ∧ bytes a = n := by
  rw [isBoundary, beq_iff_eq, floorBoundary]
  constructor
  · intro h
    exact ⟨takeBytes n cs, dropBytes n cs, (takeBytes_append_dropBytes n cs).symm, h⟩
  · rintro ⟨a, b, rfl, rfl⟩
    rw [takeBytes_append]

theorem isBoundary_append (a b : Text) : isBoundary (a ++ b) (bytes a) = true :=
  isBoundary_iff.2 ⟨a, b, rfl, rfl⟩

theorem isBoundary_le {cs : Text} {n : Nat} (h : isBoundary cs n = true) : n ≤ bytes cs := by
  obtain ⟨a, b, rfl, rfl⟩ := isBoundary_iff.1 h
  rw [bytes_append]; omega

/-- Two splits of one text are nested: the shorter prefix begins the longer. -/
theorem prefix_of_bytes_le {a b a' b' : Text} (h : a ++ b = a' ++ b') (hl : bytes a ≤ bytes a') :
    ∃ m, a' = a ++ m ∧ b = m ++ b' := by
  rcases List.append_eq_append_iff.1 h with ⟨m, rfl, rfl⟩ | ⟨m, rfl, rfl⟩
  · exact ⟨m, rfl, rfl⟩
  · have hm : m = [] := by
      by_contra hne
      have := bytes_pos hne
      rw [bytes_append] at hl; omega
    subst hm
    exact ⟨[], by simp, by simp⟩

/-- **A slice is the middle of a split in three.** -/
theorem slice?_eq_some_iff {cs t : Text} {s : Span} :
    slice? cs s = some t ↔
      ∃ a b, cs = a ++ t ++ b ∧ bytes a = s.start ∧ bytes a + bytes t = s.stop := by
  unfold slice?
  constructor
  · intro h
    split at h
    · next hc =>
      simp only [Bool.and_eq_true, decide_eq_true_eq] at hc
      obtain ⟨⟨hle, hs⟩, he⟩ := hc
      obtain ⟨a, b, rfl, ha⟩ := isBoundary_iff.1 hs
      obtain ⟨a', b', hab, ha'⟩ := isBoundary_iff.1 he
      obtain ⟨m, rfl, rfl⟩ := prefix_of_bytes_le hab (by omega)
      rw [bytes_append] at ha'
      have hm : s.stop - s.start = bytes m := by omega
      rw [← ha, dropBytes_append, ha, hm, takeBytes_append, Option.some.injEq] at h
      subst h
      exact ⟨a, b', by simp, ha, ha'⟩
    · cases h
  · rintro ⟨a, b, rfl, ha, ht⟩
    have hs : isBoundary (a ++ t ++ b) s.start = true := by
      rw [← ha, List.append_assoc]; exact isBoundary_append a (t ++ b)
    have he : isBoundary (a ++ t ++ b) s.stop = true := by
      rw [← ht, ← bytes_append]; exact isBoundary_append (a ++ t) b
    have hm : s.stop - s.start = bytes t := by omega
    have hle : s.start ≤ s.stop := by omega
    rw [if_pos (by simp only [hs, he, hle, decide_true, Bool.and_self]), ← ha, List.append_assoc,
      dropBytes_append, ha, hm,
      takeBytes_append]

end AnnotatedJson.Text
