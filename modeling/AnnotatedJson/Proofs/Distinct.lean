/-
  Lists in which nothing is repeated.

  The modes of a registry, the proposals for a value and the languages of a document are all listed
  without repetition, in the order in which they come up first.

  * `freshNames seen names`: the names that are not seen yet, each at its first occurrence;
  * `Registry.distinct_names`, `distinctItems_labels` and `RegionIndex.languages_eq`: the three lists
    in these terms;
  * `eraseDups_filterMap_eraseDups`: repetitions may be left out before a list is mapped as well as
    after.
-/
import Mathlib
import AnnotatedJson.Mode.Registry
import AnnotatedJson.Schema.Assist

namespace AnnotatedJson

/-- The names that are not in `seen`, each once, in the order of their first occurrences. -/
def freshNames (seen names : List String) : List String := (names.filter (· ∉ seen)).eraseDups

section
variable {seen seen' names : List String} {n : String}

@[simp] theorem freshNames_nil (seen : List String) : freshNames seen [] = [] := rfl

theorem freshNames_cons_of_mem (h : n ∈ seen) (names : List String) :
    freshNames seen (n :: names) = freshNames seen names := by
  simp [freshNames, h]

theorem freshNames_cons_of_notMem (h : n ∉ seen) (names : List String) :
    freshNames seen (n :: names) = n :: freshNames (n :: seen) names := by
  have hfilter : (names.filter (· ∉ seen)).filter (fun b => !b == n) = names.filter
      (· ∉ n :: seen) := by
    rw [List.filter_filter]
    congr 1
    funext m
    by_cases hm : m = n <;> simp [hm]
  rw [freshNames, List.filter_cons_of_pos (by simpa using h), List.eraseDups_cons, hfilter, freshNames]

theorem freshNames_congr (h : ∀ n, n ∈ seen ↔ n ∈ seen') (names : List String) :
    freshNames seen names = freshNames seen' names := by
  simp [freshNames, h]

@[simp] theorem mem_freshNames : n ∈ freshNames seen names ↔ n ∈ names ∧ n ∉ seen := by
  simp [freshNames]

theorem freshNames_nodup (seen names : List String) : (freshNames seen names).Nodup := by
  induction names generalizing seen with
  | nil => simp
  | cons n names ih =>
    by_cases h : n ∈ seen
    · rw [freshNames_cons_of_mem h]
      exact ih seen
    · rw [freshNames_cons_of_notMem h]
      simp [ih]

/-- What the first names bring is seen when the others come. -/
theorem freshNames_append (seen names names' : List String) :
    freshNames seen (names ++ names') =
      freshNames seen names ++ freshNames (seen ++ names) names' := by
  induction names generalizing seen with
  | nil => simp
  | cons n names ih =>
    by_cases h : n ∈ seen
    · have hseen : freshNames (seen ++ n :: names) names' = freshNames (seen ++ names) names' := by
        apply freshNames_congr
        intro m
        by_cases hm : m = n <;> simp [hm, h]
      rw [List.cons_append, freshNames_cons_of_mem h, freshNames_cons_of_mem h, ih, hseen]
    · have hseen : freshNames (seen ++ n :: names) names' = freshNames (n :: seen ++ names) names' := by
        apply freshNames_congr
        intro m
        simp only [List.mem_append, List.mem_cons]
        tauto
      rw [List.cons_append, freshNames_cons_of_notMem h, freshNames_cons_of_notMem h, ih, hseen]
      rfl

theorem freshNames_empty (names : List String) : freshNames [] names = names.eraseDups := by
  simp [freshNames]

end

/-- Repetitions may be left out before a list is mapped as well as after. -/
theorem eraseDups_filterMap_eraseDups (f : String → Option String) (l : List String) :
    (l.eraseDups.filterMap f).eraseDups = (l.filterMap f).eraseDups := by
  -- by induction on the length: what follows the first element loses all its other occurrences
  induction hlen : l.length using Nat.strong_induction_on generalizing l f with
  | _ len ih =>
    cases l with
    | nil => rfl
    | cons a as =>
      have hshort : (as.filter fun b => !b == a).length < len := by
        rw [← hlen]
        exact Nat.lt_succ_of_le (List.length_filter_le _ _)
      have hdrop : ∀ g : String → Option String, g a = none →
          (as.filter fun b => !b == a).filterMap g = as.filterMap g := by
        intro g hg
        rw [List.filterMap_filter]
        congr 1
        funext b
        by_cases hb : b = a
        · simp [hb, hg]
        · simp [hb]
      rw [List.eraseDups_cons]
      cases hfa : f a with
      | none =>
        rw [List.filterMap_cons_none hfa, List.filterMap_cons_none hfa, ih _ hshort f _ rfl,
          hdrop f hfa]
      | some b =>
        -- the later occurrences of `b` go away on both sides
        have hfilter : ∀ bs : List String, (bs.filterMap f).filter (fun c => !c == b) =
            bs.filterMap fun x => (f x).filter fun c => !c == b := by
          intro bs
          rw [List.filter_filterMap]
        rw [List.filterMap_cons_some hfa, List.filterMap_cons_some hfa, List.eraseDups_cons,
          List.eraseDups_cons, hfilter, hfilter, ih _ hshort _ _ rfl, hdrop _ (by simp [hfa])]

/-! ## The lists of the program -/

/-- Modes are kept at the first occurrences of their names. -/
theorem Registry.distinct_names (seen : List String) (ms : List Mode) :
    (distinct seen ms).map Mode.name = freshNames seen (ms.map Mode.name) := by
  induction ms generalizing seen with
  | nil => rfl
  | cons m ms ih =>
    rw [distinct, List.map_cons]
    by_cases h : m.name ∈ seen
    · rw [if_pos h, freshNames_cons_of_mem h, ih]
    · rw [if_neg h, freshNames_cons_of_notMem h, List.map_cons, ih]

theorem Registry.distinct_sublist (seen : List String) (ms : List Mode) :
    (distinct seen ms).Sublist ms := by
  induction ms generalizing seen with
  | nil => exact .slnil
  | cons m ms ih =>
    rw [distinct]
    split
    · exact (ih seen).cons m
    · exact (ih _).cons_cons m

/-- Proposals are kept at the first occurrences of their labels. -/
theorem distinctItems_labels (seen : List String) (items : List CompletionItem) :
    (distinctItems seen items).map CompletionItem.label =
      freshNames seen (items.map CompletionItem.label) := by
  induction items generalizing seen with
  | nil => rfl
  | cons i items ih =>
    rw [distinctItems, List.map_cons]
    by_cases h : i.label ∈ seen
    · rw [if_pos (by simpa using h), freshNames_cons_of_mem h, ih]
    · rw [if_neg (by simpa using h), freshNames_cons_of_notMem h, List.map_cons, ih]

namespace RegionIndex

/-- The languages in a document as they come: the host's, then that of each region. -/
def tags (x : RegionIndex) : List String := x.hostLanguage :: x.regions.map Region.language

/-- The languages of a document are listed at their first occurrences. -/
theorem languages_eq (x : RegionIndex) : x.languages = x.tags.eraseDups := by
  have hfold : ∀ (rs : List Region) (seen : List String),
      rs.foldl (fun seen r => if seen.contains r.language then seen else seen ++ [r.language]) seen =
        seen ++ freshNames seen (rs.map Region.language) := by
    intro rs
    induction rs with
    | nil => simp
    | cons r rs ih =>
      intro seen
      rw [List.foldl_cons, ih, List.map_cons]
      by_cases h : r.language ∈ seen
      · rw [if_pos (by simpa using h), freshNames_cons_of_mem h]
      · have hseen : freshNames (seen ++ [r.language]) (rs.map Region.language) =
            freshNames (r.language :: seen) (rs.map Region.language) := by
          apply freshNames_congr
          intro n
          simp [or_comm]
        rw [if_neg (by simpa using h), freshNames_cons_of_notMem h, hseen, List.append_assoc]
        rfl
  rw [languages, hfold, tags, ← freshNames_empty, freshNames_cons_of_notMem List.not_mem_nil]
  rfl

end RegionIndex

end AnnotatedJson
