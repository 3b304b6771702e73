/-
  Indices and commas.

  The index of an element of an array counts the nodes before it, and a word leaves none.  So the
  index falls behind the commas of the array by one for each word before the element.

  * `Token.ownCommas`: the commas of an array at its own level;
  * `Elements.Writes.split`: as many commas stand before an element as elements;
  * `Literal.commasBefore`: the commas of an array before an element, told from the text;
  * `Literal.index_behind_commas`: an index that falls behind;
  * `Literal.pathTo_element`: by how much the index of an element falls behind.
-/
import Mathlib
import AnnotatedJson.Pattern.Reader
import AnnotatedJson.Schema.Navigate
import AnnotatedJson.Proofs.Elements

namespace AnnotatedJson

namespace Token

/-! ## Commas at one level -/

/-- The number of commas outside of brackets and braces, where `depth` more are open at the start. -/
def ownCommas : Nat → List Token → Nat
  | _, [] => 0
  | depth, t :: ts =>
    match t.kind with
    | .openBracket | .openBrace => ownCommas (depth + 1) ts
    | .closeBracket | .closeBrace => ownCommas (depth - 1) ts
    | .comma => (if depth = 0 then 1 else 0) + ownCommas depth ts
    | _ => ownCommas depth ts

section
variable {t : Token} (depth : Nat) (ts : List Token)

theorem ownCommas_open (h : t.kind = .openBracket ∨ t.kind = .openBrace) :
    ownCommas depth (t :: ts) = ownCommas (depth + 1) ts := by
  rcases h with h | h <;> rw [ownCommas, h]

theorem ownCommas_close (h : t.kind = .closeBracket ∨ t.kind = .closeBrace) :
    ownCommas (depth + 1) (t :: ts) = ownCommas depth ts := by
  rcases h with h | h <;> rw [ownCommas, h] <;> rfl

theorem ownCommas_comma (h : t.kind = .comma) :
    ownCommas depth (t :: ts) = (if depth = 0 then 1 else 0) + ownCommas depth ts := by
  rw [ownCommas, h]

theorem ownCommas_scalar (h : t.kind.isScalar = true) :
    ownCommas depth (t :: ts) = ownCommas depth ts := by
  rw [ownCommas]
  cases hk : t.kind <;> rw [hk] at h <;> first | rfl | cases h

theorem ownCommas_key (h : t.kind = .string ∨ t.kind = .unknown) :
    ownCommas depth (t :: ts) = ownCommas depth ts := by
  rcases h with h | h <;> rw [ownCommas, h]

theorem ownCommas_colon (h : t.kind = .colon) : ownCommas depth (t :: ts) = ownCommas depth ts := by
  rw [ownCommas, h]

end

end Token

namespace Elements

open Token

/-- No comma of an element counts, and none of elements and members inside of brackets. -/
def Form.Level : Form → List Token → Prop
  | .element _, ts => ∀ depth us, ownCommas depth (ts ++ us) = ownCommas depth us
  | _, ts => ∀ depth us, ownCommas (depth + 1) (ts ++ us) = ownCommas (depth + 1) us

theorem Writes.level {form : Form} {ts : List Token} (h : Writes form ts) : form.Level ts := by
  induction h with
  | scalar ht => exact fun depth us => ownCommas_scalar depth us ht
  | word ht => exact fun depth us => ownCommas_key depth us (.inr ht)
  | @array a ts z els ha hz _ ih =>
    intro depth us
    calc ownCommas depth (a :: ts ++ [z] ++ us)
        = ownCommas (depth + 1) (ts ++ (z :: us)) := by
          rw [List.append_assoc, List.cons_append, ownCommas_open _ _ (.inl ha)]
          rfl
      _ = ownCommas depth us := by rw [ih, ownCommas_close _ _ (.inl hz)]
  | @object a ts z ha hz _ ih =>
    intro depth us
    calc ownCommas depth (a :: ts ++ [z] ++ us)
        = ownCommas (depth + 1) (ts ++ (z :: us)) := by
          rw [List.append_assoc, List.cons_append, ownCommas_open _ _ (.inr ha)]
          rfl
      _ = ownCommas depth us := by rw [ih, ownCommas_close _ _ (.inr hz)]
  | noElement | noMember => exact fun _ _ => rfl
  | lastElement _ ih => exact fun depth us => ih (depth + 1) us
  | lastMember _ ih => exact ih
  | nextElement _ hd _ ih ih' =>
    intro depth us
    rw [List.append_assoc, ih, List.cons_append, ownCommas_comma _ _ hd, ih']
    simp
  | nextMember _ hd _ ih ih' =>
    intro depth us
    rw [List.append_assoc, ih, List.cons_append, ownCommas_comma _ _ hd, ih']
    simp
  | member hk hc _ ih =>
    intro depth us
    rw [List.cons_append, List.cons_append, ownCommas_key _ _ hk, ownCommas_colon _ _ hc, ih]

/-- **As many commas stand before an element as elements.** -/
theorem Writes.split {pre post : List Element} {el : Element} {ts : List Token}
    (h : Writes (.elements (pre ++ el :: post)) ts) :
    ∃ us v vs, ts = us ++ v :: vs ∧ Opens el v ∧ ownCommas 0 us = pre.length := by
  induction pre generalizing ts with
  | nil =>
    cases h with
    | lastElement hw =>
      obtain ⟨t, us, rfl, hopens, -⟩ := hw.head
      exact ⟨[], t, us, rfl, hopens, rfl⟩
    | @nextElement _ _ d vs _ hw _ _ =>
      obtain ⟨t, us, rfl, hopens, -⟩ := hw.head
      exact ⟨[], t, us ++ d :: vs, rfl, hopens, rfl⟩
  | cons e pre ih =>
    generalize hels : e :: pre ++ el :: post = els at h
    cases h with
    | noElement => cases hels
    | lastElement => simp at hels
    | @nextElement ts _ d vs _ hw hd h =>
      obtain ⟨-, rfl⟩ := List.cons.inj hels
      obtain ⟨us, v, vs, rfl, hopens, hcommas⟩ := ih h
      refine ⟨ts ++ d :: us, v, vs, by simp, hopens, ?_⟩
      rw [hw.level, ownCommas_comma _ _ hd, hcommas, List.length_cons, if_pos rfl, Nat.add_comm]

end Elements

/-! ## Tokens by their starts -/

namespace Token

/-- Tokens that start one after the other. -/
abbrev Ascending (ts : List Token) : Prop := ts.Pairwise fun a b => a.span.start < b.span.start

/-- The tokens of a text start one after the other. -/
theorem scan_ascending (cs : Text) : Ascending (scan cs) := by
  have hplaced := Literal.scan_placed cs
  have hordered := (scans_scan cs).ordered
  have hended := (scans_scan cs).ended
  revert hplaced hordered hended
  generalize scan cs = ts
  intro hplaced hordered hended
  induction ts with
  | nil => exact .nil
  | cons t ts ih =>
    obtain ⟨hlater, hordered⟩ := List.pairwise_cons.1 hordered
    by_cases hk : t.kind = .eof
    · rw [hended.eq_nil hk]
      exact List.pairwise_singleton _ _
    · refine List.pairwise_cons.2 ⟨fun u hu => ?_, ?_⟩
      · exact ((hplaced t List.mem_cons_self).start_lt_stop hk).trans_le (hlater u hu)
      · exact ih (fun u hu => hplaced u (List.mem_cons_of_mem _ hu)) hordered (hended.tail hk)

variable {all ts us : List Token} {t u : Token}

/-- A token is found by its start, and so is what comes from it on. -/
theorem Ascending.suffix_eq (h : Ascending all) (ht : t :: ts <:+ all) (hu : u :: us <:+ all)
    (hs : t.span.start = u.span.start) : t :: ts = u :: us := by
  induction all with
  | nil => cases List.suffix_nil.1 ht
  | cons x xs ih =>
    obtain ⟨hlater, h⟩ := List.pairwise_cons.1 h
    rcases List.suffix_cons_iff.1 ht with ht | ht <;> rcases List.suffix_cons_iff.1 hu with hu | hu
    · rw [ht, hu]
    · have hlt := hlater u (hu.subset List.mem_cons_self)
      rw [← (List.cons.inj ht).1] at hlt
      omega
    · have hlt := hlater t (ht.subset List.mem_cons_self)
      rw [← (List.cons.inj hu).1] at hlt
      omega
    · exact ih h ht hu

theorem Ascending.eq_of_start (h : Ascending all) (ht : t ∈ all) (hu : u ∈ all)
    (hs : t.span.start = u.span.start) : t = u := by
  obtain ⟨before, after, rfl⟩ := List.append_of_mem ht
  obtain ⟨before', after', heq⟩ := List.append_of_mem hu
  exact (List.cons.inj (h.suffix_eq ⟨before, rfl⟩ ⟨before', heq.symm⟩ hs)).1

/-- The tokens between two tokens are those that start between them. -/
theorem Ascending.filter_between {before after : List Token}
    (h : Ascending (before ++ t :: (ts ++ u :: after))) :
    (before ++ t :: (ts ++ u :: after)).filter
      (fun x => t.span.start < x.span.start ∧ x.span.start < u.span.start) = ts := by
  obtain ⟨-, h₁, hbefore⟩ := List.pairwise_append.1 h
  obtain ⟨hafter, h₂⟩ := List.pairwise_cons.1 h₁
  obtain ⟨-, h₃, hinner⟩ := List.pairwise_append.1 h₂
  obtain ⟨hlast, -⟩ := List.pairwise_cons.1 h₃
  have hnone : before.filter
      (fun x => t.span.start < x.span.start ∧ x.span.start < u.span.start) = [] := by
    refine List.filter_eq_nil_iff.2 fun x hx => ?_
    have := hbefore x hx t List.mem_cons_self
    simp only [decide_eq_true_eq]
    omega
  have hall : ts.filter
      (fun x => t.span.start < x.span.start ∧ x.span.start < u.span.start) = ts := by
    refine List.filter_eq_self.2 fun x hx => ?_
    have hlow := hafter x (List.mem_append_left _ hx)
    have hhigh := hinner x hx u List.mem_cons_self
    simpa using ⟨hlow, hhigh⟩
  have hrest : (u :: after).filter
      (fun x => t.span.start < x.span.start ∧ x.span.start < u.span.start) = [] := by
    refine List.filter_eq_nil_iff.2 fun x hx => ?_
    simp only [decide_eq_true_eq]
    rcases List.mem_cons.1 hx with rfl | hx
    · omega
    · have := hlast x hx
      omega
  rw [List.filter_append, hnone, List.nil_append, List.filter_cons, if_neg (by simp),
    List.filter_append,
    hall, hrest, List.append_nil]

end Token

namespace Literal

open Elements Token

/-! ## Elements of arrays of a text -/

/-- The number of commas at the level of the array at an offset, before the element at another. -/
def commasBefore (cs : Text) (array element : Nat) : Nat :=
  ownCommas 0 ((Cursor.visible (scan cs)).filter fun t =>
    array < t.span.start ∧ t.span.start < element)

/-- An array in a text: its brackets, the tokens around them, and the elements that the tokens between
    them write. -/
structure ArrayText (cs : Text) where
  before : List Token
  opening : Token
  inner : List Token
  closing : Token
  after : List Token
  elements : List Element
  tokens : Cursor.visible (scan cs) = before ++ opening :: (inner ++ closing :: after)
  opens : opening.kind = .openBracket
  closes : closing.kind = .closeBracket
  writes : Writes (.elements elements) inner

theorem visible_ascending (cs : Text) : Ascending (Cursor.visible (scan cs)) :=
  (scan_ascending cs).sublist List.filter_sublist

namespace ArrayText

variable {cs : Text} {allow : Bool} (w : ArrayText cs) {pre post : List Element} {el el' : Element}

/-- Where an array starts. -/
def offset : Nat := w.opening.span.start

/-- As many commas stand before an element as elements. -/
theorem commasBefore_eq (h : w.elements = pre ++ el :: post) :
    commasBefore cs w.offset el.start = pre.length := by
  obtain ⟨us, v, vs, hinner, hopens, hcommas⟩ := (h ▸ w.writes).split
  have htokens : Cursor.visible (scan cs) =
      w.before ++ w.opening :: (us ++ v :: (vs ++ w.closing :: w.after)) := by
    rw [w.tokens, hinner]
    simp
  have hascending := visible_ascending cs
  rw [htokens] at hascending
  rw [commasBefore, htokens, offset, ← hopens.start, hascending.filter_between, hcommas]

/-- The first token of an element is a token of the text. -/
theorem exists_opens (h : el ∈ w.elements) : ∃ t ∈ Cursor.visible (scan cs), Opens el t := by
  obtain ⟨pre, post, hsplit⟩ := List.append_of_mem h
  obtain ⟨us, v, vs, hinner, hopens, -⟩ := (hsplit ▸ w.writes).split
  refine ⟨v, ?_, hopens⟩
  rw [w.tokens, hinner]
  simp

/-- No value starts where a word does. -/
theorem start_ne (h : el ∈ w.elements) (h' : el' ∈ w.elements) (hword : el.word = true)
    (hvalue : el'.word = false) : el'.start ≠ el.start := by
  intro hs
  obtain ⟨t, ht, hopens⟩ := w.exists_opens h
  obtain ⟨t', ht', hopens'⟩ := w.exists_opens h'
  have heq := (visible_ascending cs).eq_of_start ht' ht (by rw [hopens.start, hopens'.start, hs])
  have hkind := hopens.kind
  have hkind' := hopens'.kind
  rw [hword, if_pos rfl] at hkind
  rw [hvalue, heq, hkind] at hkind'
  cases hkind'

/-- **The items of an array are its elements that are no words.** -/
theorem items_offset {e : Option Nat × Node} {mark : Mark} {items : List Node}
    (he : e ∈ (parse cs allow).arena) (hn : e.2 = .array mark items) (hmark : mark.offset = w.offset) :
    items.map Node.offset = (w.elements.filter (!·.word)).map Element.start := by
  have horigin := parse_origin cs allow e he (by rw [hn]; rfl)
  rw [hn] at horigin
  cases horigin with
  | key hm => cases hm
  | @value p q hread hready hsuffix =>
    obtain ⟨ds, hds, -, -⟩ := opening_stream (context cs allow) (scans_scan cs).ended
    have hstream : p.stream <:+ scan cs := hsuffix.trans ⟨ds, hds.symm⟩
    have hstart : p.current.span.start = w.opening.span.start :=
      hread.value_offset.symm.trans hmark
    -- The text has one token that starts where the array does.
    have hvisible : Cursor.visible p.stream = w.opening :: (w.inner ++ w.closing :: w.after) := by
      have hcurrent := hready.visible_stream
      rw [hcurrent]
      refine (visible_ascending cs).suffix_eq ?_ ⟨w.before, w.tokens.symm⟩ hstart
      rw [← hcurrent]
      exact hstream.filter _
    exact w.writes.items_offset w.closes (at_of_visible hready hstream hvisible) hread

end ArrayText

/-- A token of ASCII characters that holds its source text. -/
def asciiToken (kind : TokenKind) (start : Nat) (source : Text) : Token :=
  ⟨kind, ⟨start, start + source.length⟩, source, none, false⟩

/-- `{"a":[foo,null]}` -/
def wordFirst : Text :=
  ['{', '"', 'a', '"', ':', '[', 'f', 'o', 'o', ',', 'n', 'u', 'l', 'l', ']', '}']

/-- The array in `wordFirst`: a word and a value. -/
def wordFirstArray : ArrayText wordFirst where
  before := [asciiToken .openBrace 0 ['{'], ⟨.string, ⟨1, 4⟩, ['a'], none, false⟩,
    asciiToken .colon 4 [':']]
  opening := asciiToken .openBracket 5 ['[']
  inner := [asciiToken .unknown 6 ['f', 'o', 'o']] ++ asciiToken .comma 9 [','] ::
    [asciiToken .null 10 ['n', 'u', 'l', 'l']]
  closing := asciiToken .closeBracket 14 [']']
  after := [asciiToken .closeBrace 15 ['}'], asciiToken .eof 16 []]
  elements := [⟨6, true⟩, ⟨10, false⟩]
  tokens := by decide +kernel
  opens := rfl
  closes := rfl
  writes := .nextElement (@Writes.word (asciiToken _ 6 _) rfl) rfl
    (.lastElement (@Writes.scalar (asciiToken _ 10 _) rfl))

/-- A schema for objects whose `a` is an array of a truth value and `null`. -/
def pairSchema : Json := .object [("properties", .object [("a", .object [("prefixItems",
  .array [.object [("type", .string "boolean")], .object [("type", .string "null")]])])])]

/-- A word before an element is no item, and the index of the element falls behind the commas.  The
    schema of the first item is applied to the second element. -/
theorem index_behind_commas : ∃ n : Node, n.offset = 10 ∧
    (parse wordFirst true).arena[4]? = some (some 3, n) ∧
    wordFirstArray.elements[1]? = some ⟨n.offset, false⟩ ∧
    commasBefore wordFirst wordFirstArray.offset n.offset = 1 ∧
    ((parse wordFirst true).pathTo n).map PathStep.segment = [.key "a", .index 0] ∧
    (Schema.along Pattern.engine pairSchema (parse wordFirst true).root
      ((parse wordFirst true).pathTo n)).map Located.value =
        [.object [("type", .string "boolean")]] := by
  refine ⟨.atom ⟨4, 10, 4⟩ .null, rfl, ?_, rfl, ?_, ?_, ?_⟩
  · cbv
  · decide +kernel
  · cbv
  · cbv

/-- The path to an item of an array is that to the array and its index. -/
theorem pathTo_item {d : Literal} {r n : Node} {mark : Mark} {before after : List Node}
    (hr : d.root = some r) (hnumbered : r.Numbered) (hs : ∀ m, r.Above m → m.Shaped)
    (hroot : r.isProperty = false) (hm : r.Above (.array mark (before ++ n :: after))) :
    d.pathTo n = d.pathTo (.array mark (before ++ n :: after)) ++
      [⟨.index before.length, some n⟩] := by
  have hkey : ∀ o, r.Above o → o.key? ≠ some (.array mark (before ++ n :: after)) := by
    intro o ho hk
    obtain ⟨_, _, h⟩ := (hs o ho).key hk
    cases h
  obtain ⟨steps, h⟩ := Node.exists_leads hs hroot hm rfl hkey
  have hself := h.pathTo?_eq hnumbered (Node.id_mem_ids _) (Node.pathTo?_self rfl)
  have hitem : n.isProperty = false := hs _ hm n (by simp)
  have hid : n.id ∈ (Node.array mark (before ++ n :: after)).ids :=
    Node.ids_subset (.single (by simp [Node.children])) (Node.id_mem_ids n)
  have hpath := h.pathTo?_eq hnumbered hid
    (Node.pathTo?_item (hnumbered.below hm) (Node.id_mem_ids n) (Node.pathTo?_self hitem))
  simp [pathTo, hr, hself, hpath]

variable (cs : Text) (allow : Bool)

/-- **By how much an index falls behind.**  In the literal of every text, an array whose elements are
    separated by single commas has an item for each element that is no word.  The path to the item
    ends in an index, which together with the words before the element counts the commas before it. -/
theorem pathTo_element (w : ArrayText cs) {e : Option Nat × Node} (he : e ∈ (parse cs allow).arena)
    {mark : Mark} {items : List Node} (hn : e.2 = .array mark items) (hmark : mark.offset = w.offset)
    {pre post : List Element} {el : Element} (hel : w.elements = pre ++ el :: post) :
    (el.word = true → ∀ n ∈ items, n.offset ≠ el.start) ∧
    (el.word = false → ∃ n ∈ items, n.offset = el.start ∧ ∃ i,
      (parse cs allow).pathTo n = (parse cs allow).pathTo e.2 ++ [⟨.index i, some n⟩] ∧
      i + pre.countP Element.word = commasBefore cs w.offset el.start) := by
  have hitems := w.items_offset he hn hmark
  constructor
  · intro hword n hitem hoffset
    have hmem : n.offset ∈ (w.elements.filter (!·.word)).map Element.start :=
      hitems ▸ List.mem_map_of_mem hitem
    obtain ⟨el', hel', hstart⟩ := List.mem_map.1 hmem
    obtain ⟨hmem', hvalue⟩ := List.mem_filter.1 hel'
    exact w.start_ne (by rw [hel]; simp) hmem' hword (by simpa using hvalue) (hstart.trans hoffset)
  · intro hvalue
    rw [hel, List.filter_append, List.filter_cons, if_pos (by simp [hvalue]), List.map_append,
      List.map_cons] at hitems
    obtain ⟨as, rest, rfl, has, hrest⟩ := List.map_eq_append_iff.1 hitems
    obtain ⟨n, bs, rfl, hoffset, -⟩ := List.map_eq_cons_iff.1 hrest
    obtain ⟨r, hr, habove⟩ := above_of_mem_arena he
    obtain ⟨hroot, hs⟩ := parse_shaped cs allow r hr
    rw [hn] at habove ⊢
    refine ⟨n, by simp, hoffset, as.length, ?_, ?_⟩
    · exact pathTo_item hr (parse_numbered cs allow r hr) hs hroot habove
    · have hlength : as.length = pre.countP (!·.word) := by
        rw [List.countP_eq_length_filter, ← List.length_map (f := Element.start), ← has,
          List.length_map]
      rw [w.commasBefore_eq hel, hlength, Nat.add_comm]
      simpa using (List.length_eq_countP_add_countP Element.word (l := pre)).symm

/-- `{"a":[foo,{b:bar},null,]}` -/
def wordInside : Text :=
  ['{', '"', 'a', '"', ':', '[', 'f', 'o', 'o', ',', '{', 'b', ':', 'b', 'a', 'r', '}', ',', 'n', 'u',
    'l', 'l', ',', ']', '}']

/-- The array in `wordInside`: a word, an object with a word for a value, and a value. -/
def wordInsideArray : ArrayText wordInside where
  before := [asciiToken .openBrace 0 ['{'], ⟨.string, ⟨1, 4⟩, ['a'], none, false⟩,
    asciiToken .colon 4 [':']]
  opening := asciiToken .openBracket 5 ['[']
  inner := [asciiToken .unknown 6 ['f', 'o', 'o']] ++ asciiToken .comma 9 [','] ::
    ((asciiToken .openBrace 10 ['{'] :: [asciiToken .unknown 11 ['b'], asciiToken .colon 12 [':'],
      asciiToken .unknown 13 ['b', 'a', 'r']] ++ [asciiToken .closeBrace 16 ['}']]) ++
    asciiToken .comma 17 [','] ::
    ([asciiToken .null 18 ['n', 'u', 'l', 'l']] ++ asciiToken .comma 22 [','] :: []))
  closing := asciiToken .closeBracket 23 [']']
  after := [asciiToken .closeBrace 24 ['}'], asciiToken .eof 25 []]
  elements := [⟨6, true⟩, ⟨10, false⟩, ⟨18, false⟩]
  tokens := by decide +kernel
  opens := rfl
  closes := rfl
  writes := .nextElement (@Writes.word (asciiToken _ 6 _) rfl) rfl
    (.nextElement (@Writes.object (asciiToken _ 10 _) _ _ rfl rfl
      (.lastMember (.member (.inr rfl) rfl (.word rfl)))) rfl
      (.nextElement (@Writes.scalar (asciiToken _ 18 _) rfl) rfl .noElement))

theorem pathTo_element_inside : ∃ e ∈ (parse wordInside true).arena, ∃ mark items,
    e.2 = .array mark items ∧ mark.offset = wordInsideArray.offset ∧
    wordInsideArray.elements = [⟨6, true⟩, ⟨10, false⟩] ++ ⟨18, false⟩ :: [] ∧
    ∃ n ∈ items, n.offset = 18 ∧ ∃ i,
      (parse wordInside true).pathTo n = (parse wordInside true).pathTo e.2 ++ [⟨.index i, some n⟩] ∧
      i + 1 = commasBefore wordInside wordInsideArray.offset 18 := by
  have harray : (parse wordInside true).arena[3]? = some (some 1, .array ⟨3, 5, 19⟩ [
      .object ⟨4, 10, 7⟩ [.hole ⟨5, 11, 2⟩ (some 12) (.atom ⟨6, 11, 1⟩ (.string "b"))],
      .atom ⟨7, 18, 4⟩ .null]) := by cbv
  have he := List.mem_of_getElem? harray
  have hel : wordInsideArray.elements = [⟨6, true⟩, ⟨10, false⟩] ++ ⟨18, false⟩ :: [] := rfl
  exact ⟨_, he, _, _, rfl, rfl, hel,
    (pathTo_element wordInside true wordInsideArray he rfl rfl hel).2 rfl⟩

end Literal

end AnnotatedJson
