/-
  Array literals with words among their elements.

  A word cannot be read as an element: it is passed, and leaves no node.

  * `Elements.Writes`: the tokens of arrays and objects whose parts are separated by single commas;
  * `Elements.Writes.yields`: how they are read;
  * `Elements.Writes.items_offset`: an array is read into one item for each element that is no word.
-/
import Mathlib
import AnnotatedJson.Proofs.Acceptance
import AnnotatedJson.Proofs.Forward
import AnnotatedJson.Proofs.Origins

namespace AnnotatedJson

/-- An element of an array: where it starts, and whether it is a word. -/
structure Element where
  start : Nat
  word : Bool

namespace Elements

/-! ## What tokens write -/

/-- What tokens may write. -/
inductive Form where
  | element (el : Element)
  | elements (els : List Element)
  | member
  | members

/-- The tokens of arrays and objects.  One comma stands between two elements and between two members,
    and one may follow the last.  Keys may be words, and may be repeated. -/
inductive Writes : Form → List Token → Prop
  | scalar {t} : t.kind.isScalar = true → Writes (.element ⟨t.span.start, false⟩) [t]
  | word {t} : t.kind = .unknown → Writes (.element ⟨t.span.start, true⟩) [t]
  | array {a ts z els} : a.kind = .openBracket → z.kind = .closeBracket → Writes (.elements els) ts →
      Writes (.element ⟨a.span.start, false⟩) (a :: ts ++ [z])
  | object {a ts z} : a.kind = .openBrace → z.kind = .closeBrace → Writes .members ts →
      Writes (.element ⟨a.span.start, false⟩) (a :: ts ++ [z])
  | noElement : Writes (.elements []) []
  | lastElement {ts el} : Writes (.element el) ts → Writes (.elements [el]) ts
  | nextElement {ts el d us els} : Writes (.element el) ts → d.kind = .comma →
      Writes (.elements els) us → Writes (.elements (el :: els)) (ts ++ d :: us)
  | member {k c ts el} : k.kind = .string ∨ k.kind = .unknown → c.kind = .colon →
      Writes (.element el) ts → Writes .member (k :: c :: ts)
  | noMember : Writes .members []
  | lastMember {ts} : Writes .member ts → Writes .members ts
  | nextMember {ts d us} : Writes .member ts → d.kind = .comma → Writes .members us →
      Writes .members (ts ++ d :: us)

/-- The first token of an element. -/
structure Opens (el : Element) (t : Token) : Prop where
  start : t.span.start = el.start
  kind : if el.word then t.kind = .unknown else Cursor.startsValue t.kind = true

theorem Writes.head {el : Element} {ts : List Token} (h : Writes (.element el) ts) :
    ∃ t us, ts = t :: us ∧ Opens el t ∧ (el.word = true → us = []) := by
  cases h with
  | @scalar t ht => exact ⟨t, [], rfl, ⟨rfl, startsValue_of_isScalar ht⟩, fun h => nomatch h⟩
  | @word t ht => exact ⟨t, [], rfl, ⟨rfl, ht⟩, fun _ => rfl⟩
  | array ha _ _ | object ha _ _ =>
    exact ⟨_, _, rfl, ⟨rfl, by rw [ha]; rfl⟩, fun h => nomatch h⟩

/-! ## Reading -/

section
open Cursor

variable {ctx : ParseContext} {all : List Token} {p q : Cursor} {ts : List Token}

variable (ctx all) in
/-- A cursor among known tokens, whatever has been recorded. -/
abbrev At : Cursor → List Token → Prop := Fair ctx all fun _ => True

theorem at_of_visible (hp : Ready p) (hs : p.stream <:+ all) (hv : visible p.stream = ts) :
    At ctx all p ts :=
  ⟨hp, fun _ _ => ⟨fun _ _ => trivial, fun _ => Or.inr trivial⟩, hs, hv, fun _ _ => trivial⟩

variable (ctx all) in
/-- What is read at a cursor whose next tokens write a form. -/
def Yields : Form → List Token → Prop
  | .element el, ts => el.word = false → ∀ p tl, At ctx all p (ts ++ tl) →
      ∃ n q, Reads ctx .value p [n] q ∧ At ctx all q tl
  | .elements els, ts => ∀ p b p' z tl, z.kind = .closeBracket → Before ctx p b p' →
      At ctx all p' (ts ++ z :: tl) →
      ∃ ns q, Reads ctx (.items b) p ns q ∧ At ctx all q (z :: tl) ∧
        ns.map Node.offset = (els.filter (!·.word)).map Element.start
  | .member, ts => ∀ p seen b p' d tl, d.kind = .comma ∨ d.kind = .closeBrace → Before ctx p b p' →
      At ctx all p' (ts ++ d :: tl) →
      ∃ key n q, (∀ ns r, Reads ctx (.members (key :: seen) true) q ns r →
          Reads ctx (.members seen b) p (n :: ns) r) ∧ At ctx all q (d :: tl)
  | .members, ts => ∀ p seen b p' z tl, z.kind = .closeBrace → Before ctx p b p' →
      At ctx all p' (ts ++ z :: tl) →
      ∃ ns q, Reads ctx (.members seen b) p ns q ∧ At ctx all q (z :: tl)

/-- A value of one token is read. -/
theorem yields_scalar {t : Token} (ht : t.kind.isScalar = true) :
    Yields ctx all (.element ⟨t.span.start, false⟩) [t] := by
  intro _ p tl hp
  have hp : At ctx all p (t :: tl) := hp
  have hstarts := startsValue_of_isScalar ht
  have hk : p.kind.isScalar = true := by rw [hp.kind]; exact ht
  obtain ⟨a, p', ha⟩ : ∃ a p', p.atom? ctx = some (a, p') := by
    unfold atom?
    cases hkind : p.kind <;> rw [hkind] at hk <;> try cases hk
    case number => cases readNumber? p.current.value <;> exact ⟨_, _, rfl⟩
    all_goals exact ⟨_, _, rfl⟩
  have hp' : At ctx all p' (t :: tl) := by
    obtain ⟨-, rfl | rfl⟩ := atom?_spec ha
    · exact hp
    · exact hp.blame trivial
  exact ⟨_, _, .atom ha, hp'.fresh.advance (startsValue_ne_eof hstarts)⟩

/-- An element is read and leaves its node, or is passed if it is a word. -/
theorem Writes.step {el : Element} {d : Token} {tl : List Token} {b : Bool} {p' : Cursor}
    (hw : Writes (.element el) ts) (hy : Yields ctx all (.element el) ts)
    (hd : d.kind = .comma ∨ d.kind = .closeBracket) (hb : Before ctx p b p')
    (hp : At ctx all p' (ts ++ d :: tl)) :
    ∃ out q, (∀ ns r, Reads ctx (.items true) q ns r → Reads ctx (.items b) p (out ++ ns) r) ∧
      At ctx all q (d :: tl) ∧ out.map Node.offset = ([el].filter (!·.word)).map Element.start := by
  obtain ⟨t, us, rfl, hopens, hus⟩ := hw.head
  have hkind := hopens.kind
  cases hword : el.word with
  | true =>
    rw [hword, if_pos rfl] at hkind
    rw [hus hword] at hp
    have hp : At ctx all p' (t :: d :: tl) := hp
    have hunknown : p'.kind = .unknown := hp.kind.trans hkind
    refine ⟨[], p'.recover ctx .valueExpected [.closeBracket, .comma], fun ns r hr => ?_, ?_, ?_⟩
    · have hsep := hb.separate (by rw [hunknown]; simp) .valueExpected
      refine .noItem (hb.continues ?_ ?_ (by simp) ?_ _) ?_ ?_
      · rw [hunknown]; simp
      · rw [hunknown]; simp
      · rw [hunknown]; simp
      · rw [hsep, hunknown]; rfl
      · rw [hsep]; exact hr
    · refine hp.recover trivial (by rw [hkind]; simp) ?_
      rcases hd with hd | hd <;> simp [hd]
    · simp [hword]
  | false =>
    rw [hword] at hkind
    obtain ⟨n, q, hv, hq⟩ := hy hword p' (d :: tl) hp
    have hp : At ctx all p' (t :: (us ++ d :: tl)) := hp
    refine ⟨[n], q, fun ns r hr => hb.item (by rw [hp.kind]; exact hkind) hv hr, hq, ?_⟩
    simp [hword, hv.value_offset, hp.start, hopens.start]

theorem yields_noElement : Yields ctx all (.elements []) [] := by
  intro p b p' z tl hz hb hp
  have hp : At ctx all p' (z :: tl) := hp
  have hkind := hp.kind.trans hz
  have hsep := hb.separate (by rw [hkind]; simp) .valueExpected
  cases hb with
  | first => exact ⟨[], p, .itemsEnd (Or.inl hkind), hp, rfl⟩
  | next hk =>
    refine ⟨[], _, .itemsTrailing hk (by rw [hsep]; exact hkind), ?_, rfl⟩
    rw [hsep, noteTrailing, if_pos rfl]
    exact hp.report trivial _

theorem yields_noMember : Yields ctx all .members [] := by
  intro p seen b p' z tl hz hb hp
  have hp : At ctx all p' (z :: tl) := hp
  have hkind := hp.kind.trans hz
  have hsep := hb.separate (by rw [hkind]; simp) .propertyExpected
  cases hb with
  | first => exact ⟨[], p, .membersEnd (Or.inl hkind), hp⟩
  | next hk =>
    refine ⟨[], _, .membersTrailing hk (by rw [hsep]; exact hkind), ?_⟩
    rw [hsep, noteTrailing, if_pos rfl]
    exact hp.report trivial _

/-- A key is read, and blamed if it is a word. -/
theorem exists_key {k : Token} (hk : k.kind = .string ∨ k.kind = .unknown)
    (hp : At ctx all p (k :: ts)) : ∃ key p', p.key? ctx = some (key, p') ∧
    At ctx all p' (k :: ts) := by
  rcases hk with hk | hk
  · exact ⟨_, p, if_pos (hp.kind.trans hk), hp⟩
  · have hkind := hp.kind.trans hk
    refine ⟨unquote p.current.value, p.blame ctx .bareKey, ?_, hp.blame trivial⟩
    rw [key?, if_neg (by rw [hkind]; simp), if_pos hkind]

/-- A member is read as a property, or as a hole if its value is a word; the word is passed. -/
theorem Writes.yields_member {k c : Token} {el : Element} (hk : k.kind = .string ∨ k.kind = .unknown)
    (hc : c.kind = .colon) (hw : Writes (.element el) ts) (hy : Yields ctx all (.element el) ts) :
    Yields ctx all .member (k :: c :: ts) := by
  intro p seen b p' d tl hd hb hp
  have hp : At ctx all p' (k :: c :: (ts ++ d :: tl)) := hp
  obtain ⟨key, p₁, hkey, hp₁⟩ := exists_key hk hp
  obtain ⟨hcolon, -, hp₂⟩ := hp₁.passKey hc (seen.contains key) fun _ => trivial
  have hkind : p₁.kind ≠ .eof := by rw [hp₁.kind]; exact hp₁.ne_eof (by simp)
  cases hword : el.word with
  | false =>
    obtain ⟨n, q, hv, hq⟩ := hy hword _ (d :: tl) hp₂
    exact ⟨key, _, q, fun ns r hr => hb.property hkey (.valued hkind (fun hn => hn.1 hcolon) hv) hr, hq⟩
  | true =>
    obtain ⟨t, us, rfl, hopens, hus⟩ := hw.head
    have ht : t.kind = .unknown := by simpa [hword] using hopens.kind
    rw [hus hword] at hp₂
    have hp₂ : At ctx all _ (t :: d :: tl) := hp₂
    have hunknown := hp₂.kind.trans ht
    have hprop : Reads ctx (.property key (seen.contains key)) p₁ _ _ :=
      .valueless hkind (fun hn => hn.1 hcolon) (by rw [hunknown]; rfl)
    rw [passNoValue, if_pos hunknown] at hprop
    -- The word is left over among the members, and skipping it ends at once.
    have hskip : At ctx all (((p₁.passKey ctx (seen.contains key)).passColon ctx).recover ctx
        .braceExpected [.closeBrace, .comma]) (d :: tl) := by
      refine hp₂.recover trivial (by rw [ht]; simp) ?_
      rcases hd with hd | hd <;> simp [hd]
    refine ⟨key, _, _, fun ns r hr => hb.property hkey hprop ?_, hskip⟩
    exact .leftover (by rw [hunknown]; simp) (by rw [hunknown]; simp) (by rw [hunknown]; simp)
      (by rw [hunknown]; simp) hr

/-- **What is written is read.** -/
theorem Writes.yields {form : Form} (h : Writes form ts) : Yields ctx all form ts := by
  induction h with
  | scalar ht => exact yields_scalar ht
  | word _ => exact fun h => nomatch h
  | @array a ts z els ha hz _ ih =>
    intro _ p tl hp
    have hp : At ctx all p (a :: (ts ++ z :: tl)) := by simpa using hp
    have h₁ : At ctx all _ _ := hp.fresh.advance (hp.ne_eof (by simp))
    obtain ⟨ns, q, hr, hq, -⟩ := ih _ false _ z tl hz .first h₁
    exact ⟨_, _, .array (hp.kind.trans ha) hr, hq.close hz (by simp) _ _ _⟩
  | @object a ts z ha hz _ ih =>
    intro _ p tl hp
    have hp : At ctx all p (a :: (ts ++ z :: tl)) := by simpa using hp
    have h₁ : At ctx all _ _ := hp.fresh.advance (hp.ne_eof (by simp))
    obtain ⟨ns, q, hr, hq⟩ := ih _ [] false _ z tl hz .first h₁
    exact ⟨_, _, .object (hp.kind.trans ha) hr, hq.close hz (by simp) _ _ _⟩
  | noElement => exact yields_noElement
  | @lastElement ts el hw ih =>
    intro p b p' z tl hz hb hp
    obtain ⟨out, q, hr, hq, hout⟩ := hw.step ih (Or.inr hz) hb hp
    exact ⟨_, q, hr [] q (.itemsEnd (Or.inl (hq.kind.trans hz))), hq, by simpa using hout⟩
  | @nextElement ts el d us els hw hd _ ih ih' =>
    intro p b p' z tl hz hb hp
    rw [List.append_assoc] at hp
    obtain ⟨out, q, hr, hq, hout⟩ := hw.step ih (Or.inl hd) hb hp
    obtain ⟨ns, r, hns, hr', hoffsets⟩ := ih' q true _ z tl hz (.next (hq.kind.trans hd))
      (hq.advance (by rw [hd]; simp))
    refine ⟨_, r, hr ns r hns, hr', ?_⟩
    rw [List.map_append, hout, hoffsets, ← List.map_append, ← List.filter_append]
    rfl
  | member hk hc hw ih => exact hw.yields_member hk hc ih
  | noMember => exact yields_noMember
  | lastMember _ ih =>
    intro p seen b p' z tl hz hb hp
    obtain ⟨key, n, q, hm, hq⟩ := ih p seen b p' z tl (Or.inr hz) hb hp
    exact ⟨_, q, hm [] q (.membersEnd (Or.inl (hq.kind.trans hz))), hq⟩
  | @nextMember ts d us _ hd _ ih ih' =>
    intro p seen b p' z tl hz hb hp
    rw [List.append_assoc] at hp
    obtain ⟨key, n, q, hm, hq⟩ := ih p seen b p' d _ (Or.inl hd) hb hp
    obtain ⟨ns, r, hns, hr⟩ := ih' q (key :: seen) true _ z tl hz (.next (hq.kind.trans hd))
      (hq.advance (by rw [hd]; simp))
    exact ⟨_, r, hm ns r hns, hr⟩

/-- **An array is read into one item for each element that is no word.** -/
theorem Writes.items_offset {a z : Token} {tl : List Token} {els : List Element} {mark : Mark}
    {items : List Node} (hw : Writes (.elements els) ts) (hz : z.kind = .closeBracket)
    (hp : At ctx all p (a :: (ts ++ z :: tl))) (h : Reads ctx .value p [.array mark items] q) :
    items.map Node.offset = (els.filter (!·.word)).map Element.start := by
  cases h with
  | @array _ _ r hk hr =>
    have h₁ : At ctx all _ _ := hp.fresh.advance (hp.ne_eof (by simp))
    obtain ⟨ns, q', hr', -, hoffsets⟩ := hw.yields _ false _ z tl hz .first h₁
    obtain ⟨rfl, -⟩ := hr.unique hr'
    exact hoffsets

end

end Elements

end AnnotatedJson
