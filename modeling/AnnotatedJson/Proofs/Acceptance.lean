/-
  Which texts are parsed without an error.

  * `Spells`: values, items and members over tokens, as in RFC 8259;
  * `Reads.sound`: what is read without an error is spelled so;
  * `spells_complete`: what is spelled so is read without an error;
  * `Literal.parse_errors_eq_nil_iff` puts the two together.
-/
import Mathlib
import AnnotatedJson.Proofs.Forward
import AnnotatedJson.Proofs.Numeral

namespace AnnotatedJson

/-! ## The grammar -/

/-- Whether a token is a value by itself. -/
def TokenKind.isScalar : TokenKind → Bool
  | .string | .number | .true | .false | .null => Bool.true
  | _ => Bool.false

/-- The parts of a text: a value, one or more items of an array, or one or more
    members of an object with their keys. -/
inductive Part where
  | value
  | items
  | members (keys : List Text)

/-- Tokens that spell a part.  The keys of an object are distinct, and no comma stands
    before a closing token. -/
inductive Spells : Part → List Token → Prop
  | scalar {t} : t.kind.isScalar = true → Spells .value [t]
  | emptyArray {a z} : a.kind = .openBracket → z.kind = .closeBracket → Spells .value [a, z]
  | array {a ts z} : a.kind = .openBracket → z.kind = .closeBracket → Spells .items ts →
      Spells .value (a :: ts ++ [z])
  | emptyObject {a z} : a.kind = .openBrace → z.kind = .closeBrace → Spells .value [a, z]
  | object {a ts z keys} : a.kind = .openBrace → z.kind = .closeBrace → Spells (.members keys) ts →
      keys.Nodup → Spells .value (a :: ts ++ [z])
  | lastItem {ts} : Spells .value ts → Spells .items ts
  | item {ts c us} : Spells .value ts → c.kind = .comma → Spells .items us →
      Spells .items (ts ++ c :: us)
  | lastMember {k c ts} : k.kind = .string → c.kind = .colon → Spells .value ts →
      Spells (.members [k.value]) (k :: c :: ts)
  | member {k c ts d us keys} : k.kind = .string → c.kind = .colon → Spells .value ts →
      d.kind = .comma → Spells (.members keys) us →
      Spells (.members (k.value :: keys)) (k :: c :: ts ++ d :: us)

theorem startsValue_of_isScalar {k : TokenKind} (h : k.isScalar = true) :
    Cursor.startsValue k = true := by
  cases k <;> first | rfl | cases h

/-- A value starts where a value can start. -/
theorem Spells.head {ts : List Token} (h : Spells .value ts) :
    ∃ t us, ts = t :: us ∧ Cursor.startsValue t.kind = true := by
  cases h with
  | scalar ht => exact ⟨_, [], rfl, startsValue_of_isScalar ht⟩
  | emptyArray ha _ | array ha _ _ | emptyObject ha _ | object ha _ _ _ =>
    exact ⟨_, _, rfl, by rw [ha]; rfl⟩

namespace Cursor

variable {ctx : ParseContext} {p q : Cursor}

/-! ## What is read without an error is spelled -/

/-- Ready and coherent, as the cursor is at all times. -/
structure Sane (p : Cursor) : Prop extends Ready p where
  coherent : Coherent p

theorem Moves.sane {all : List Token} (h : Moves ctx all p q) (hp : Sane p) : Sane q :=
  ⟨h.ready hp.toReady, h.coherent hp.coherent⟩

theorem Reads.sane {task : Task} {out : List Node} (h : Reads ctx task p out q) (hp : Sane p) :
    Sane q := (h.goes hp.toReady).sane hp

/-- A reading that ends without errors had none before. -/
theorem Reads.errors_eq_nil {task : Task} {out : List Node} (h : Reads ctx task p out q) (hp : Sane p)
    (hq : q.errors = []) : p.errors = [] :=
  (h.goes hp.toReady).errors_eq_nil hq

theorem recover_errors_ne_nil (hp : Sane p) (problem : Problem) (stops : List TokenKind) :
    (p.recover ctx problem stops).errors ≠ [] := by
  intro h
  have hm : Moves ctx p.stream _ _ :=
    moves_skipLoop stops ((p.blame ctx problem).rest.length + 1) (p.blame ctx problem)
  exact blame_errors_ne_nil hp.coherent problem (hm.errors_eq_nil h)

/-- What is read after recovering cannot be free of errors. -/
theorem Reads.after_recover {task : Task} {problem : Problem} {stops : List TokenKind}
    {out : List Node} (h : Reads ctx task (p.recover ctx problem stops) out q) (hp : Sane p) :
    q.errors ≠ [] := by
  have hs := (goes_recover ctx p problem stops).sane hp
  exact fun hq => recover_errors_ne_nil hp problem stops (h.errors_eq_nil hs hq)

/-- Where no problem is recorded, a comma is passed exactly if one is needed. -/
theorem separate_silent (hp : Sane p) {b : Bool} {problem : Problem}
    (h : (p.separate ctx b problem).errors = []) :
    (b = true ∧ p.kind = .comma ∧ p.separate ctx b problem = p.advance ctx) ∨
      (b = false ∧ p.kind ≠ .comma ∧ p.separate ctx b problem = p) := by
  unfold separate at h ⊢
  cases b with
  | true =>
    by_cases hk : p.kind = .comma
    · exact Or.inl ⟨rfl, hk, by simp [hk]⟩
    · rw [if_neg hk, if_pos rfl] at h
      exact absurd h (blame_errors_ne_nil hp.coherent _)
  | false =>
    by_cases hk : p.kind = .comma
    · rw [if_pos hk, if_neg (by simp)] at h
      have hm : Moves ctx [] _ _ := moves_advance (by simp [hk] : (p.blame ctx problem).kind ≠ .eof)
      exact absurd (hm.errors_eq_nil h) (blame_errors_ne_nil hp.coherent problem)
    · exact Or.inr ⟨rfl, hk, by simp [hk]⟩

theorem close_silent (hp : Sane p) {id start : Nat} {closer : TokenKind} {problem : Problem}
    (h : (p.close ctx id start closer problem).2.errors = []) :
    p.kind = closer ∧ (p.close ctx id start closer problem).2 = p.advance ctx := by
  unfold close at h ⊢
  split at h
  · next hk => exact ⟨hk, by simp [hk]⟩
  · exact absurd h (blame_errors_ne_nil hp.coherent problem)

/-- Elements up to the end of their container: after an element, a comma comes first. -/
inductive Rest (Elements : List Token → Prop) : Bool → List Token → Prop
  | nil {b} : Rest Elements b []
  | first {ts} : Elements ts → Rest Elements false ts
  | next {c ts} : c.kind = .comma → Elements ts → Rest Elements true (c :: ts)

theorem Rest.item {ts us : List Token} (h : Spells .value ts) (h' : Rest (Spells .items) true us) :
    Spells .items (ts ++ us) := by
  cases h' with
  | nil => rw [List.append_nil]; exact .lastItem h
  | next hc hu => exact .item h hc hu

theorem Rest.member {k c : Token} {ts us : List Token} {keys : List Text} (hk : k.kind = .string)
    (hc : c.kind = .colon) (h : Spells .value ts) (h' : Rest (Spells (.members keys)) true us) :
    ∃ keys', keys'.Sublist keys ∧ Spells (.members (k.value :: keys')) (k :: c :: ts ++ us) := by
  cases h' with
  | nil => exact ⟨[], List.nil_sublist _, by rw [List.append_nil]; exact .lastMember hk hc h⟩
  | next hd hu => exact ⟨keys, List.Sublist.refl _, .member hk hc h hd hu⟩

variable (ctx) in
/-- What a reading without errors has taken. -/
def Sound : Task → Cursor → List Node → Cursor → Prop
  | .value, p, out, q => out ≠ [] → ∃ ts, Spells .value ts ∧ Took ctx p q ts
  | .items b, p, _, q => ∃ ts, Rest (Spells .items) b ts ∧ Took ctx p q ts
  | .members seen b, p, _, q => (b = true → p.kind ≠ .unknown) ∧
      ∃ keys ts, Rest (Spells (.members keys)) b ts ∧ keys.Nodup ∧ (∀ k ∈ keys, k ∉ seen) ∧
        Took ctx p q ts
  | .property _ rep, p, _, q => rep = false ∧ (q.kind = .unknown ∨
      ∃ c ts, c.kind = .colon ∧ Spells .value ts ∧ Took ctx p q (p.current :: c :: ts))

theorem took_open (hp : Sane p) (hk : p.kind ≠ .eof) (h : (p.fresh.2.advance ctx).errors = []) :
    Took ctx p (p.fresh.2.advance ctx) [p.current] := by
  have hf : Ready p.fresh.2 := hp.of_stream rfl
  obtain ⟨hv, hq⟩ := took_advance hf hp.coherent hk h
  exact ⟨hv, hq⟩

/-- A container that is read without an error is closed, and is spelled by its brackets
    and what was taken between them. -/
theorem Took.container {task : Task} {ns : List Node} (hp : Sane p) (hk : p.kind ≠ .eof)
    (h : Reads ctx task (p.fresh.2.advance ctx) ns q) {id start : Nat} {closer : TokenKind}
    (hc : closer ≠ .eof) {problem : Problem}
    (hq : (q.close ctx id start closer problem).2.errors = []) :
    q.kind = closer ∧ q.errors = [] ∧ ∀ ts, Took ctx (p.fresh.2.advance ctx) q ts →
      Took ctx p (q.close ctx id start closer problem).2 (p.current :: ts ++ [q.current]) := by
  have hs := (goes_open ctx p hk).sane hp
  have hsq := h.sane hs
  obtain ⟨hkq, heq⟩ := close_silent hsq hq
  rw [heq] at hq ⊢
  have hm : Moves ctx [] q (q.advance ctx) := moves_advance (hkq ▸ hc)
  have he := hm.errors_eq_nil hq
  refine ⟨hkq, he, fun ts ht => ?_⟩
  have h₁ := took_open hp hk (h.errors_eq_nil hs he)
  have h₃ := took_advance hsq.toReady hsq.coherent (hkq ▸ hc) hq
  exact (h₁.trans ht).trans h₃

/-- Where an element is read without an error, the comma before it is taken if there
    has to be one. -/
theorem Took.separate (hp : Sane p) {b : Bool} {problem : Problem}
    (h : (p.separate ctx b problem).errors = []) :
    (b = true → p.kind = .comma) ∧
      ∀ {Elements : List Token → Prop} {ts : List Token} {q : Cursor}, Elements ts →
        Took ctx (p.separate ctx b problem) q ts →
        ∃ us, Rest Elements b us ∧ Took ctx p q us := by
  rcases separate_silent hp h with ⟨rfl, hk, he⟩ | ⟨rfl, hk, he⟩ <;> rw [he] at h ⊢
  · have hk' : p.kind ≠ .eof := by rw [hk]; simp
    have h₁ := took_advance hp.toReady hp.coherent hk' h
    exact ⟨fun _ => hk, fun ht h₂ => ⟨_, .next hk ht, h₁.trans h₂⟩⟩
  · exact ⟨by simp, fun ht h₂ => ⟨_, .first ht, h₂⟩⟩

/-- A key and its colon, passed without an error. -/
theorem Took.keyColon (hp : Sane p) (hk : p.kind ≠ .eof) {rep : Bool}
    (h : ((p.passKey ctx rep).passColon ctx).errors = []) :
    rep = false ∧ (p.passKey ctx rep).kind = .colon ∧
      Took ctx p ((p.passKey ctx rep).passColon ctx) [p.current, (p.passKey ctx rep).current] := by
  have hsk := (goes_passKey ctx p hk rep).sane hp
  have hek := (goes_passColon ctx _).errors_eq_nil h
  have hrep : rep = false := by
    by_contra hr
    have hf : Moves ctx [] p (p.fresh.2.fresh.2.advance ctx) := Move.fresh.moves.trans (moves_open hk)
    rw [passKey, if_pos (by simpa using hr)] at hek
    exact report_errors_ne_nil (hf.coherent hp.coherent) _ _ hek
  subst hrep
  have hcolon : (p.passKey ctx false).kind = .colon := by
    by_contra hc
    rw [passColon, if_neg hc] at h
    exact blame_errors_ne_nil hsk.coherent _ h
  have hf : Sane p.fresh.2 := ⟨hp.of_stream rfl, hp.coherent⟩
  have h₁ : Took ctx p (p.passKey ctx false) [p.current] := by
    obtain ⟨hv, hq⟩ := took_open hf hk hek
    exact ⟨hv, hq⟩
  refine ⟨rfl, hcolon, ?_⟩
  rw [passColon, if_pos hcolon] at h ⊢
  exact h₁.trans (took_advance hsk.toReady hsk.coherent (by rw [hcolon]; simp) h)

theorem atom?_isScalar {a : Atom} (h : p.atom? ctx = some (a, q)) : p.kind.isScalar = true := by
  unfold atom? at h
  cases hk : p.kind <;> rw [hk] at h <;> first | rfl | cases h

/-- A trailing comma is a problem. -/
theorem noteTrailing_errors_ne_nil (hp : Sane p) (hk : p.kind = .comma) {b : Bool} {problem : Problem}
    {comma : Nat} : ((p.separate ctx b problem).noteTrailing b comma).errors ≠ [] := by
  intro h
  unfold noteTrailing at h
  split at h
  · exact report_errors_ne_nil ((goes_separate ctx p b problem).sane hp).coherent _ _ h
  · next hb =>
    rcases separate_silent hp h with ⟨h1, -, -⟩ | ⟨-, h2, -⟩
    · exact hb h1
    · exact h2 hk

theorem sound_member {seen : List Text} {b : Bool} {key : Text} {p' r : Cursor} {n : Node}
    {ns : List Node} (hp : Sane p)
    (hkey : (p.separate ctx b .propertyExpected).key? ctx = some (key, p'))
    (h₁ : Reads ctx (.property key (seen.contains key)) p' [n] q)
    (h₂ : Reads ctx (.members (key :: seen) true) q ns r)
    (ih₁ : Sane p' → q.errors = [] → Sound ctx (.property key (seen.contains key)) p' [n] q)
    (ih₂ : Sane q → r.errors = [] → Sound ctx (.members (key :: seen) true) q ns r)
    (hr : r.errors = []) : Sound ctx (.members seen b) p (n :: ns) r := by
  have hs := (goes_separate ctx p b .propertyExpected).sane hp
  have hs' := (goes_key? hkey).sane hs
  have hsq := h₁.sane hs'
  have heq := h₂.errors_eq_nil hsq hr
  have hep' := h₁.errors_eq_nil hs' heq
  obtain ⟨hcomma, htook⟩ := Took.separate hp ((goes_key? hkey).errors_eq_nil hep')
  -- A bare key is a problem, so the key is a string.
  obtain ⟨hks, rfl, rfl⟩ : (p.separate ctx b .propertyExpected).kind = .string ∧
      key = (p.separate ctx b .propertyExpected).current.value ∧
      p' = p.separate ctx b .propertyExpected := by
    rcases key?_spec hkey with h | ⟨-, -, rfl⟩
    · exact h
    · exact absurd hep' (blame_errors_ne_nil hs.coherent _)
  obtain ⟨hunk, keys, us, hrest, hnd, hnew, ht₂⟩ := ih₂ hsq hr
  obtain ⟨hrep, hstuck | ⟨c, ts, hc, hv, ht₁⟩⟩ := ih₁ hs' heq
  · exact absurd hstuck (hunk rfl)
  obtain ⟨keys', hsub, hspell⟩ := Rest.member hks hc hv hrest
  obtain ⟨vs, hvs, ht⟩ := htook hspell (ht₁.trans ht₂)
  refine ⟨fun hb => by rw [hcomma hb]; simp, _, vs, hvs, ?_, ?_, ht⟩
  · refine List.nodup_cons.2 ⟨fun hmem => ?_, hnd.sublist hsub⟩
    exact hnew _ (hsub.subset hmem) (List.mem_cons_self ..)
  · intro k hk
    rcases List.mem_cons.1 hk with rfl | hk
    · simpa using hrep
    · exact fun hmem => hnew k (hsub.subset hk) (List.mem_cons_of_mem _ hmem)

/-- **What is read without an error is spelled.** -/
theorem Reads.sound {task : Task} {out : List Node} (h : Reads ctx task p out q) (hp : Sane p)
    (hq : q.errors = []) : Sound ctx task p out q := by
  induction h with
  | @object p ns q hk h ih =>
    intro _
    have hk' : p.kind ≠ .eof := by rw [hk]; simp
    obtain ⟨hkq, he, ht⟩ := Took.container hp hk' h (by simp) hq
    obtain ⟨-, keys, ts, hr, hnd, -, htk⟩ := ih ((goes_open ctx p hk').sane hp) he
    refine ⟨_, ?_, ht ts htk⟩
    cases hr with
    | nil => exact .emptyObject hk hkq
    | first hr => exact .object hk hkq hr hnd
  | @array p ns q hk h ih =>
    intro _
    have hk' : p.kind ≠ .eof := by rw [hk]; simp
    obtain ⟨hkq, he, ht⟩ := Took.container hp hk' h (by simp) hq
    obtain ⟨ts, hr, htk⟩ := ih ((goes_open ctx p hk').sane hp) he
    refine ⟨_, ?_, ht ts htk⟩
    cases hr with
    | nil => exact .emptyArray hk hkq
    | first hr => exact .array hk hkq hr
  | @atom p a q h =>
    intro _
    obtain ⟨hv, rfl | rfl⟩ := atom?_spec h
    · exact ⟨_, .scalar (atom?_isScalar h), took_open hp (startsValue_ne_eof hv) hq⟩
    · have hm : Moves ctx [] (p.blame ctx .numberFormat) _ :=
        moves_takeAtom (by simpa using startsValue_ne_eof hv) a
      exact absurd (hm.errors_eq_nil hq) (blame_errors_ne_nil hp.coherent _)
  | noValue _ => exact fun h => absurd rfl h
  | itemsEnd _ => exact ⟨[], .nil, .refl _⟩
  | itemsTrailing hk _ | membersTrailing hk _ => exact absurd hq (noteTrailing_errors_ne_nil hp hk)
  | @item b p n q ns r hc h₁ h₂ ih₁ ih₂ =>
    have hs := (goes_separate ctx p b .valueExpected).sane hp
    have hsq := h₁.sane hs
    have heq := h₂.errors_eq_nil hsq hq
    obtain ⟨-, htook⟩ := Took.separate hp (h₁.errors_eq_nil hs heq)
    obtain ⟨ts, hv, ht₁⟩ := ih₁ hs heq (by simp)
    obtain ⟨us, hrest, ht₂⟩ := ih₂ hsq hq
    exact htook (Rest.item hv hrest) (ht₁.trans ht₂)
  | @noItem b p ns r hc _ h ih | @noMember seen b p ns r hc _ _ h ih =>
    exact absurd hq (h.after_recover ((goes_separate ctx p b _).sane hp))
  | membersEnd hk =>
    refine ⟨fun _ hu => ?_, [], [], .nil, List.nodup_nil, by simp, .refl _⟩
    rw [hu] at hk
    simp at hk
  | leftover _ _ _ _ h _ =>
    exact absurd hq (h.after_recover hp)
  | member _ _ hkey h₁ h₂ ih₁ ih₂ => exact sound_member hp hkey h₁ h₂ ih₁ ih₂ hq
  | nextLine hk hn =>
    exact absurd (Took.keyColon hp hk hq).2.1 hn.1
  | @valued key rep p v q hk hn h ih =>
    have hs := (goes_passColon ctx _).sane ((goes_passKey ctx p hk rep).sane hp)
    obtain ⟨hrep, hc, ht⟩ := Took.keyColon hp hk (h.errors_eq_nil hs hq)
    obtain ⟨ts, hv, ht'⟩ := ih hs hq (by simp)
    exact ⟨hrep, Or.inr ⟨_, ts, hc, hv, ht.trans ht'⟩⟩
  | @valueless key rep p hk hn hv =>
    unfold passNoValue at hq ⊢
    split at hq
    · next hu =>
      rw [if_pos hu]
      exact ⟨(Took.keyColon hp hk hq).1, Or.inl hu⟩
    · have hs := (goes_passColon ctx _).sane ((goes_passKey ctx p hk rep).sane hp)
      exact absurd hq (recover_errors_ne_nil hs _ _)

/-! ## What is spelled is read without an error -/

section
variable {all : List Token}

variable (ctx all) in
/-- A fair cursor at which nothing has been recorded. -/
abbrev Still : Cursor → List Token → Prop := Fair ctx all fun _ => False

theorem Still.errors_eq_nil {ts : List Token} (h : Still ctx all p ts) : p.errors = [] :=
  List.eq_nil_iff_forall_not_mem.2 h.errors

variable (ctx all) in
/-- What can be read at a fair cursor whose next tokens are `ts`. -/
def Complete : Part → List Token → Prop
  | .value, ts => ∀ p tl, tl ≠ [] → Still ctx all p (ts ++ tl) →
      ∃ n q, Reads ctx .value p [n] q ∧ Still ctx all q tl
  | .items, ts => ∀ p b p' z tl, tl ≠ [] → z.kind = .closeBracket → Before ctx p b p' →
      Still ctx all p' (ts ++ z :: tl) →
      ∃ ns q, Reads ctx (.items b) p ns q ∧ Still ctx all q (z :: tl)
  | .members keys, ts => ∀ p seen b p' z tl, tl ≠ [] → z.kind = .closeBrace → keys.Nodup →
      (∀ k ∈ keys, k ∉ seen) → Before ctx p b p' → Still ctx all p' (ts ++ z :: tl) →
      ∃ ns q, Reads ctx (.members seen b) p ns q ∧ Still ctx all q (z :: tl)

/-- An item is read, and then the items after it. -/
theorem complete_item {ts us : List Token} {b : Bool} {p' : Cursor} (h : Spells .value ts)
    (ih : Complete ctx all .value ts) (hus : us ≠ []) (hb : Before ctx p b p')
    (hp : Still ctx all p' (ts ++ us)) :
    ∃ n q, (∀ ns r, Reads ctx (.items true) q ns r → Reads ctx (.items b) p (n :: ns) r) ∧
      Still ctx all q us := by
  obtain ⟨n, q, hv, hq⟩ := ih p' us hus hp
  obtain ⟨t, ts', rfl, ht⟩ := h.head
  exact ⟨n, q, fun ns r hr => hb.item (by rw [hp.kind]; exact ht) hv hr, hq⟩

/-- A member is read, and then the members after it. -/
theorem complete_member {k c : Token} {ts us : List Token} {seen : List Text} {b : Bool} {p' : Cursor}
    (hk : k.kind = .string) (hc : c.kind = .colon) (ih : Complete ctx all .value ts) (hus : us ≠ [])
    (hnew : k.value ∉ seen) (hb : Before ctx p b p') (h : Still ctx all p' (k :: c :: ts ++ us)) :
    ∃ n q, (∀ ns r, Reads ctx (.members (k.value :: seen) true) q ns r →
      Reads ctx (.members seen b) p (n :: ns) r) ∧ Still ctx all q us := by
  have hpk : p'.kind = .string := h.kind.trans hk
  have hkey : p'.key? ctx = some (k.value, p') := by rw [Cursor.key?, if_pos hpk, h.current]
  obtain ⟨hcolon, -, hfair⟩ := h.property hc
  obtain ⟨v, q, hv, hq⟩ := ih _ us hus hfair
  have hn : Reads ctx (.property k.value false) p' _ q :=
    .valued (by rw [hpk]; simp) (fun hn => hn.1 hcolon) hv
  exact ⟨_, q, fun ns r hr => hb.member hkey hnew hn hr, hq⟩

theorem Still.atom? {t : Token} {ts : List Token} (h : Still ctx all p (t :: ts))
    (hread : ∀ t ∈ all, t.kind = .number → (readNumber? t.value).isSome = true)
    (ht : t.kind.isScalar = true) : ∃ a, p.atom? ctx = some (a, p) := by
  have hk := h.kind
  cases htk : t.kind <;> rw [htk] at ht hk <;> try cases ht
  case number =>
    have hr := hread t h.mem htk
    rw [← h.current] at hr
    obtain ⟨x, hx⟩ := Option.isSome_iff_exists.1 hr
    exact ⟨_, by simp only [Cursor.atom?, hk, hx]; rfl⟩
  all_goals exact ⟨_, by simp only [Cursor.atom?, hk]; rfl⟩

/-- **What is spelled can be read without an error.** -/
theorem spells_complete {part : Part} {ts : List Token}
    (hread : ∀ t ∈ all, t.kind = .number → (readNumber? t.value).isSome = true) (h : Spells part ts) :
    Complete ctx all part ts := by
  induction h with
  | scalar ht =>
    intro p tl htl hp
    obtain ⟨a, ha⟩ := Still.atom? hp hread ht
    exact ⟨_, _, .atom ha, hp.fresh.advance (hp.ne_eof htl)⟩
  | @emptyArray a z ha hz =>
    intro p tl htl hp
    have h₁ := hp.fresh.advance (by rw [ha]; simp)
    exact ⟨_, _, .array (hp.kind.trans ha) (.itemsEnd (Or.inl (h₁.kind.trans hz))),
      h₁.close hz (by simp) _ _ _⟩
  | @array a ts z ha hz _ ih =>
    intro p tl htl hp
    have hp : Still ctx all p (a :: (ts ++ z :: tl)) := by simpa using hp
    have h₁ := hp.fresh.advance (by rw [ha]; simp)
    obtain ⟨ns, q, hr, hq⟩ := ih _ false _ z tl htl hz .first h₁
    exact ⟨_, _, .array (hp.kind.trans ha) hr, hq.close hz (by simp) _ _ _⟩
  | @emptyObject a z ha hz =>
    intro p tl htl hp
    have h₁ := hp.fresh.advance (by rw [ha]; simp)
    exact ⟨_, _, .object (hp.kind.trans ha) (.membersEnd (Or.inl (h₁.kind.trans hz))),
      h₁.close hz (by simp) _ _ _⟩
  | @object a ts z keys ha hz _ hnd ih =>
    intro p tl htl hp
    have hp : Still ctx all p (a :: (ts ++ z :: tl)) := by simpa using hp
    have h₁ := hp.fresh.advance (by rw [ha]; simp)
    obtain ⟨ns, q, hr, hq⟩ := ih _ [] false _ z tl htl hz hnd (by simp) .first h₁
    exact ⟨_, _, .object (hp.kind.trans ha) hr, hq.close hz (by simp) _ _ _⟩
  | @lastItem ts h ih =>
    intro p b p' z tl htl hz hb hp
    obtain ⟨n, q, hv, hq⟩ := complete_item h ih (by simp) hb hp
    exact ⟨_, q, hv [] q (.itemsEnd (Or.inl (hq.kind.trans hz))), hq⟩
  | @item ts c us h hc _ ih ih' =>
    intro p b p' z tl htl hz hb hp
    rw [List.append_assoc] at hp
    obtain ⟨n, q, hv, hq⟩ := complete_item h ih (by simp) hb hp
    obtain ⟨ns, r, hr, hr'⟩ := ih' q true _ z tl htl hz (.next (hq.kind.trans hc))
      (hq.advance (by rw [hc]; simp))
    exact ⟨_, r, hv ns r hr, hr'⟩
  | lastMember hk hc _ ih =>
    intro p seen b p' z tl htl hz hnd hnew hb hp
    obtain ⟨n, q, hm, hq⟩ := complete_member hk hc ih (by simp) (hnew _ (List.mem_cons_self ..)) hb hp
    exact ⟨_, q, hm [] q (.membersEnd (Or.inl (hq.kind.trans hz))), hq⟩
  | @member k c ts d us keys hk hc _ hd _ ih ih' =>
    intro p seen b p' z tl htl hz hnd hnew hb hp
    obtain ⟨hfresh, hnd⟩ := List.nodup_cons.1 hnd
    rw [List.cons_append, List.cons_append, List.append_assoc] at hp
    obtain ⟨n, q, hm, hq⟩ := complete_member hk hc ih (by simp) (hnew _ (List.mem_cons_self ..)) hb hp
    have hnew' : ∀ key ∈ keys, key ∉ k.value :: seen := by
      intro key hkey hmem
      rcases List.mem_cons.1 hmem with rfl | hmem
      · exact hfresh hkey
      · exact hnew key (List.mem_cons_of_mem _ hkey) hmem
    obtain ⟨ns, r, hr, hr'⟩ := ih' q (k.value :: seen) true _ z tl htl hz hnd hnew'
      (.next (hq.kind.trans hd)) (hq.advance (by rw [hd]; simp))
    exact ⟨_, r, hm ns r hr, hr'⟩

end

end Cursor

namespace Literal

open Cursor

/-! ## Whole texts -/

section
variable {ctx : ParseContext} {tokens : List Token}

variable (ctx) in
theorem visible_opening (h : Token.Ended tokens) :
    visible tokens = visible (opening ctx tokens).stream := by
  obtain ⟨ds, hd, hcom, -⟩ := opening_stream ctx h
  calc visible tokens = visible (ds ++ (opening ctx tokens).stream) := congrArg visible hd
    _ = visible (opening ctx tokens).stream := by rw [visible_append, visible_comments hcom]; rfl

theorem default_coherent : Coherent default := fun _ => rfl

variable (ctx) in
/-- At the first token nothing has been recorded iff what was drawn is quiet. -/
theorem opening_clean (h : Token.Ended tokens) : ∃ ds, tokens = ds ++ (opening ctx tokens).stream ∧
    Sane (opening ctx tokens) ∧
    ((opening ctx tokens).errors = [] ↔ ∀ t ∈ ds ++ [(opening ctx tokens).current], Quiet ctx t) := by
  obtain ⟨ds, hd, hcom, hr⟩ := opening_stream ctx h
  have hd' : tokens = ds ++ (opening ctx tokens).current :: (opening ctx tokens).rest := hd
  have hcoh : Coherent (opening ctx tokens) := draw_coherent default_coherent false tokens
  have hclean := draw_clean ctx default_coherent false (opening ctx tokens).rest hcom hr.plain
  rw [← hd'] at hclean
  exact ⟨ds, hd, ⟨hr, hcoh⟩, hclean.trans ⟨fun h => h.2, fun h => ⟨rfl, h⟩⟩⟩

/-- A text is read without an error iff a value is, and the end of input follows it. -/
theorem closing_errors_eq_nil_iff {out : List Node} {q : Cursor} (hq : Sane q) :
    (closing ctx out q).errors = [] ↔ out ≠ [] ∧ q.kind = .eof ∧ q.errors = [] := by
  unfold closing
  cases out with
  | nil => simp [blame_errors_ne_nil hq.coherent]
  | cons n out =>
    by_cases hk : q.kind = .eof
    · simp [hk]
    · simp [hk, blame_errors_ne_nil hq.coherent]

theorem quiet_tokens {ts : List Token} {q : Cursor} (h : Token.Ended tokens)
    (ho : (opening ctx tokens).errors = []) (ht : Took ctx (opening ctx tokens) q ts)
    (hq : q.rest = []) :
    visible tokens = ts ++ visible q.stream ∧ ∀ t ∈ tokens, Quiet ctx t := by
  obtain ⟨ds, hd, -, hclean⟩ := opening_clean ctx h
  have hquiet := hclean.1 ho
  constructor
  · rw [visible_opening ctx h, ht.visible_eq]
  · intro t htm
    rw [hd, List.mem_append] at htm
    rcases htm with htm | htm
    · exact hquiet t (List.mem_append_left _ htm)
    · rcases List.mem_cons.1 htm with rfl | htm
      · exact hquiet _ (List.mem_append_right _ (List.mem_singleton_self _))
      · rcases ht.quiet t htm with hr | hr
        · rw [hq] at hr; cases hr
        · exact hr

end

theorem quiet_iff (ctx : ParseContext) (tokens : List Token) : (∀ t ∈ tokens, Quiet ctx t) ↔
    (∀ t ∈ tokens, t.fault = none) ∧
      (ctx.allowComments = false → ∀ t ∈ tokens, t.kind.isComment = false) := by
  constructor
  · intro h
    refine ⟨fun t ht => (h t ht).1, fun ha t ht => ?_⟩
    by_contra hc
    rw [(h t ht).2 (by simpa using hc)] at ha
    cases ha
  · rintro ⟨hf, hc⟩ t ht
    refine ⟨hf t ht, fun hk => ?_⟩
    by_contra ha
    rw [hc (by simpa using ha) t ht] at hk
    cases hk

/-- **The texts that are parsed without an error.**  They are those whose tokens have no
    fault, with comments only where these are allowed, and which without the comments
    are one value, with distinct keys in each of its objects, and the end of input. -/
theorem parse_errors_eq_nil_iff (cs : Text) (allow : Bool) : (parse cs allow).errors = [] ↔
    (∀ t ∈ Token.scan cs, t.fault = none) ∧
    (allow = false → ∀ t ∈ Token.scan cs, t.kind.isComment = false) ∧
    ∃ ts e, visible (Token.scan cs) = ts ++ [e] ∧ e.kind = .eof ∧ Spells .value ts := by
  have hended := (Token.scans_scan cs).ended
  obtain ⟨ds, hd, hs, hclean⟩ := opening_clean (context cs allow) hended
  rw [← and_assoc]
  refine Iff.trans ?_ (and_congr_left' (quiet_iff (context cs allow) (Token.scan cs)))
  constructor
  · intro h
    obtain ⟨out, q, hr, he⟩ := parse_eq cs allow
    rw [he] at h
    have hsq := hr.sane hs
    obtain ⟨hout, hk, hq⟩ := (closing_errors_eq_nil_iff hsq).1 h
    obtain ⟨ts, hts, ht⟩ := hr.sound hs hq hout
    have hrest := hsq.ended.eq_nil hk
    obtain ⟨hv, hquiet⟩ := quiet_tokens hended (hr.errors_eq_nil hs hq) ht hrest
    rw [hsq.toReady.visible_stream, hrest] at hv
    exact ⟨hquiet, ts, q.current, hv, hk, hts⟩
  · rintro ⟨hquiet, ts, e, hv, hek, hts⟩
    have hread : ∀ t ∈ Token.scan cs, t.kind = .number → (readNumber? t.value).isSome = true :=
      fun t ht hk => (Token.scans_scan cs).readable t ht hk (hquiet t ht).1
    have hfair : Still (context cs allow) (Token.scan cs)
        (opening (context cs allow) (Token.scan cs)) (ts ++ [e]) := hv ▸ opening_fair hended hquiet _
    obtain ⟨n, q, hr, hq⟩ := spells_complete hread hts _ [e] (by simp) hfair
    rw [parse_of_fair hr hq hek]
    exact Still.errors_eq_nil hq

end Literal

end AnnotatedJson
