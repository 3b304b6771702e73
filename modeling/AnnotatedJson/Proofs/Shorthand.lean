/-
  Object literals with shorthand.

  Keys may be bare words or stand in single quotes, a value may be a single word, and a
  comma may follow the last member.

  * `Shorthand.Denotes`: the tokens of such a literal and what they denote, told from the
    text alone;
  * `Shorthand.Member.Parsed`: a member and the node that it is parsed into;
  * `Shorthand.Denotes.yields`: a literal is parsed into what it denotes, with a hole for
    each shorthand value, and only shorthand is blamed.
-/
import Mathlib
import AnnotatedJson.Literal.Repair
import AnnotatedJson.Proofs.Content
import AnnotatedJson.Proofs.Forward
import AnnotatedJson.Proofs.Tree

namespace AnnotatedJson

theorem Mark.span_sub {id start stop : Nat} (h : 0 < stop - start) :
    (⟨id, start, stop - start⟩ : Mark).span = ⟨start, stop⟩ := by
  rw [Mark.span, Mark.stop_sub (by omega)]

namespace Shorthand

/-! ## What tokens denote -/

section
variable (cs : Text) (t : Token)

/-- A string in double quotes and what it stands for. -/
def Quoted (content : Text) : Prop :=
  t.kind = .string ∧ ∃ body, Text.slice? cs t.span = some ('"' :: body ++ ['"']) ∧
    Lexeme.Decodes body content

/-- A word between two quotes `q`. -/
def Between (q : Char) (word : Text) : Prop :=
  t.kind = .unknown ∧ Text.slice? cs t.span = some (q :: word ++ [q])

/-- A word that starts with no quote. -/
def Bare (word : Text) : Prop :=
  t.kind = .unknown ∧ Text.slice? cs t.span = some word ∧
    ∀ c ∈ word.head?, c ≠ '\'' ∧ c ≠ '`' ∧ c ≠ '"'

/-- A key. -/
inductive Names : Text → Prop
  | quoted {key} : Quoted cs t key → Names key
  | bare {key} : Bare cs t key → Names key
  | single {key} : Between cs t '\'' key → Names key

/-- A shorthand value. -/
inductive Word : Text → Prop
  | bare {word} : Bare cs t word → Word word
  | single {word} : Between cs t '\'' word → Word word
  | backtick {word} : Between cs t '`' word → Word word

/-- A value of one token.  Numbers are integers of at most 53 bits. -/
inductive Scalar : Json → Prop
  | null : t.kind = .null → Scalar .null
  | boolean {b : Bool} : t.kind = (if b then .true else .false) → Scalar (.bool b)
  | number {n : Int} : t.kind = .number → Text.slice? cs t.span = some (Text.decimal n) →
      n.natAbs ≤ 2 ^ 53 → Scalar (.number (.int n))
  | string {content} : Quoted cs t content → Scalar (.string (String.ofList content))

end

/-- A member of an object: its key, the extent of key and value, that of the value, and
    the value. -/
structure Member where
  key : Text
  span : Span
  place : Span
  value : Json
  /-- The value is a word. -/
  shorthand : Bool

/-- The key as a string. -/
def Member.name (m : Member) : String := String.ofList m.key

/-- The key and the value. -/
def Member.entry (m : Member) : String × Json := (m.name, m.value)

/-- The value of an object as it stands: shorthand is left out. -/
def objectJson (ms : List Member) : Json := .object ((ms.filter (!·.shorthand)).map Member.entry)

/-- What tokens may denote. -/
inductive Form where
  | value (v : Json) (span : Span)
  | items (vs : List Json)
  | object (ms : List Member) (span : Span)
  | members (ms : List Member)
  | member (m : Member)

/-- The tokens of a literal and what they denote.  The keys of an object are distinct. -/
inductive Denotes (cs : Text) : Form → List Token → Prop
  | scalar {t v} : Scalar cs t v → Denotes cs (.value v t.span) [t]
  | emptyArray {a z} : a.kind = .openBracket → z.kind = .closeBracket →
      Denotes cs (.value (.array []) ⟨a.span.start, z.span.stop⟩) [a, z]
  | array {a ts z vs} : a.kind = .openBracket → z.kind = .closeBracket → Denotes cs (.items vs) ts →
      Denotes cs (.value (.array vs) ⟨a.span.start, z.span.stop⟩) (a :: ts ++ [z])
  | nested {ts ms span} : Denotes cs (.object ms span) ts → Denotes cs (.value (objectJson ms) span) ts
  | lastItem {ts v span} : Denotes cs (.value v span) ts → Denotes cs (.items [v]) ts
  | item {ts c us v vs span} : Denotes cs (.value v span) ts → c.kind = .comma →
      Denotes cs (.items vs) us → Denotes cs (.items (v :: vs)) (ts ++ c :: us)
  | emptyObject {a z} : a.kind = .openBrace → z.kind = .closeBrace →
      Denotes cs (.object [] ⟨a.span.start, z.span.stop⟩) [a, z]
  | object {a ts z ms} : a.kind = .openBrace → z.kind = .closeBrace → Denotes cs (.members ms) ts →
      (ms.map Member.key).Nodup → Denotes cs (.object ms ⟨a.span.start, z.span.stop⟩) (a :: ts ++ [z])
  | lastMember {ts m} : Denotes cs (.member m) ts → Denotes cs (.members [m]) ts
  | trailing {ts m d} : Denotes cs (.member m) ts → d.kind = .comma →
      Denotes cs (.members [m]) (ts ++ [d])
  | next {ts m d us ms} : Denotes cs (.member m) ts → d.kind = .comma → Denotes cs (.members ms) us →
      Denotes cs (.members (m :: ms)) (ts ++ d :: us)
  | valued {k c ts key v span} : Names cs k key → c.kind = .colon → Denotes cs (.value v span) ts →
      Denotes cs (.member ⟨key, ⟨k.span.start, span.stop⟩, span, v, false⟩) (k :: c :: ts)
  | word {k c w key content} : Names cs k key → c.kind = .colon → Word cs w content →
      Denotes cs (.member ⟨key, ⟨k.span.start, w.span.stop⟩, w.span,
        .string (String.ofList content), true⟩) [k, c, w]

/-- A value starts where a value can start. -/
theorem Denotes.head {cs : Text} {v : Json} {span : Span} {ts : List Token}
    (h : Denotes cs (.value v span) ts) : ∃ t us, ts = t :: us ∧ Cursor.startsValue t.kind = true := by
  cases h with
  | scalar ht =>
    refine ⟨_, [], rfl, ?_⟩
    cases ht with
    | null hk | number hk _ _ => rw [hk]; rfl
    | @boolean b hk => cases b <;> rw [hk] <;> rfl
    | string hq => rw [hq.1]; rfl
  | emptyArray ha _ | array ha _ _ => exact ⟨_, _, rfl, by rw [ha]; rfl⟩
  | nested h =>
    cases h with
    | emptyObject ha _ | object ha _ _ _ => exact ⟨_, _, rfl, by rw [ha]; rfl⟩

theorem Denotes.nodup {cs : Text} {ms : List Member} {span : Span} {ts : List Token}
    (h : Denotes cs (.object ms span) ts) : (ms.map Member.key).Nodup := by
  cases h with
  | emptyObject _ _ => exact List.nodup_nil
  | object _ _ _ hnd => exact hnd

/-! ## Extents -/

/-- A member between two of the tokens; a word is the last of them. -/
def Member.Held (ts : List Token) (m : Member) : Prop :=
  ∃ k ∈ ts, ∃ z ∈ ts, m.span = ⟨k.span.start, z.span.stop⟩ ∧ (m.shorthand = true → m.place = z.span)

theorem Member.Held.mono {ts us : List Token} {m : Member} (h : m.Held ts) (hs : ts ⊆ us) :
    m.Held us := by
  obtain ⟨k, hk, z, hz, h⟩ := h
  exact ⟨k, hs hk, z, hs hz, h⟩

/-- Tokens one after the other. -/
abbrev InOrder (ts : List Token) : Prop := ts.Pairwise fun a b => a.span.stop ≤ b.span.start

/-- Members one after the other. -/
abbrev Apart (ms : List Member) : Prop := ms.Pairwise fun a b => a.span.stop ≤ b.span.start

/-- Where the parts of a form lie among its tokens. -/
def Form.Reaches (ts : List Token) : Form → Prop
  | .value _ span => ∃ a ∈ ts, ∃ z ∈ ts, span = ⟨a.span.start, z.span.stop⟩
  | .items _ => True
  | .object ms span =>
      (∃ a ∈ ts, ∃ z ∈ ts, span = ⟨a.span.start, z.span.stop⟩) ∧ (∀ m ∈ ms, m.Held ts) ∧ Apart ms
  | .members ms => (∀ m ∈ ms, m.Held ts) ∧ Apart ms
  | .member m => m.Held ts

/-- What comes from the tokens before a comma lies before what comes from those after it. -/
theorem Member.Held.before {ts us : List Token} {d : Token} {m n : Member}
    (ho : InOrder (ts ++ d :: us)) (hm : m.Held ts) (hn : n.Held us) : m.span.stop ≤ n.span.start := by
  obtain ⟨_, _, z, hz, hms, _⟩ := hm
  obtain ⟨k, hk, _, _, hns, _⟩ := hn
  rw [hms, hns]
  exact (List.pairwise_append.1 ho).2.2 z hz k (List.mem_cons_of_mem _ hk)

theorem Denotes.reaches {cs : Text} {form : Form} {ts : List Token} (h : Denotes cs form ts)
    (ho : InOrder ts) : form.Reaches ts := by
  induction h with
  | @scalar t v ht => exact ⟨t, List.mem_singleton_self t, t, List.mem_singleton_self t, rfl⟩
  | @emptyArray a z _ _ => exact ⟨a, by simp, z, by simp, rfl⟩
  | @array a ts z vs _ _ _ _ => exact ⟨a, by simp, z, by simp, rfl⟩
  | nested _ ih => exact (ih ho).1
  | lastItem _ _ => trivial
  | item _ _ _ _ _ => trivial
  | @emptyObject a z _ _ => exact ⟨⟨a, by simp, z, by simp, rfl⟩, by simp, .nil⟩
  | @object a ts z ms _ _ _ _ ih =>
    have hin : ts.Sublist (a :: ts ++ [z]) :=
      (List.sublist_append_left ts [z]).trans (List.sublist_cons_self a _)
    obtain ⟨hheld, hapart⟩ := ih (ho.sublist hin)
    exact ⟨⟨a, by simp, z, by simp, rfl⟩, fun m hm => (hheld m hm).mono hin.subset, hapart⟩
  | @lastMember ts m _ ih =>
    refine ⟨fun x hx => ?_, List.pairwise_singleton _ _⟩
    rw [List.mem_singleton.1 hx]
    exact ih ho
  | @trailing ts m d _ _ ih =>
    have hin := List.sublist_append_left ts [d]
    refine ⟨fun x hx => ?_, List.pairwise_singleton _ _⟩
    rw [List.mem_singleton.1 hx]
    exact (ih (ho.sublist hin)).mono hin.subset
  | @next ts m d us ms _ _ _ ih ih' =>
    have hin := List.sublist_append_left ts (d :: us)
    have hin' : us.Sublist (ts ++ d :: us) :=
      (List.sublist_cons_self d us).trans (List.sublist_append_right ts (d :: us))
    have hm := ih (ho.sublist hin)
    obtain ⟨hheld, hapart⟩ := ih' (ho.sublist hin')
    refine ⟨fun x hx => ?_, List.pairwise_cons.2 ⟨fun x hx => hm.before ho (hheld x hx), hapart⟩⟩
    rcases List.mem_cons.1 hx with rfl | hx
    · exact hm.mono hin.subset
    · exact (hheld x hx).mono hin'.subset
  | @valued k c ts key v span _ _ _ ih =>
    obtain ⟨a, _, z, hz, rfl⟩ := ih ((List.pairwise_cons.1 (List.pairwise_cons.1 ho).2).2)
    exact ⟨k, by simp, z, by simp [hz], rfl, fun h => by cases h⟩
  | @word k c w key content _ _ _ => exact ⟨k, by simp, w, by simp, rfl, fun _ => rfl⟩

/-! ## What members are parsed into -/

/-- A member and its node: a property, or a hole that starts where the member does and
    ends before it. -/
inductive Member.Parsed (m : Member) : Node → Prop
  | property {mark colon key v} : m.shorthand = false → mark.span = m.span →
      key.text? = some m.name → v.span = m.place → v.toJson = m.value →
      Parsed m (.property mark colon key v)
  | hole {mark colon key} : m.shorthand = true → mark.offset = m.span.start →
      mark.stop ≤ m.span.stop → key.text? = some m.name →
      Parsed m (.hole mark colon key)

theorem insert_of_notMem {name : String} {ms : List (String × Json)} (h : name ∉ ms.map Prod.fst)
    (v : Json) : Json.insert name v ms = ms ++ [(name, v)] := by
  induction ms with
  | nil => rfl
  | cons m ms ih =>
    rw [List.map_cons, List.mem_cons, not_or] at h
    rw [Json.insert, if_neg (Ne.symm h.1), ih h.2]
    rfl

theorem nodup_names {ms : List Member} (h : (ms.map Member.key).Nodup) :
    (ms.map Member.name).Nodup := by
  have he : ms.map Member.name = (ms.map Member.key).map String.ofList := by
    rw [List.map_map]
    rfl
  rw [he]
  exact h.map fun _ _ => String.ofList_injective

/-- The members of an object with distinct keys, in their order. -/
theorem membersJson_parsed {ms : List Member} {ns : List Node} (h : List.Forall₂ Member.Parsed ms ns)
    {seen : List (String × Json)} (hnd : (seen.map Prod.fst ++ ms.map Member.name).Nodup) :
    Node.membersJson seen ns = seen ++ (ms.filter (!·.shorthand)).map Member.entry := by
  induction h generalizing seen with
  | nil => simp [Node.membersJson]
  | @cons m n ms ns hm _ ih =>
    cases hm with
    | @property mark colon key v hs _ hkey _ hv =>
      have hnew : m.name ∉ seen.map Prod.fst := by
        rw [List.map_cons, List.nodup_append] at hnd
        exact fun hmem => hnd.2.2 _ hmem _ (List.mem_cons_self ..) rfl
      rw [Node.membersJson, hkey, hv, Option.getD_some]
      rw [insert_of_notMem hnew, ih (by simpa using hnd)]
      simp [hs, Member.entry]
    | hole hs _ _ _ =>
      rw [Node.membersJson]
      · rw [ih ?_]
        · simp [hs]
        · rw [List.map_cons, List.nodup_middle] at hnd
          exact (List.nodup_cons.1 hnd).2
      · simp

theorem objectJson_parsed {ms : List Member} {ns : List Node} (h : List.Forall₂ Member.Parsed ms ns)
    (hnd : (ms.map Member.key).Nodup) (mark : Mark) : (Node.object mark ns).toJson = objectJson ms := by
  rw [Node.toJson, membersJson_parsed h (by simpa using nodup_names hnd)]
  rfl

/-! ## Reading -/

/-- The problems that shorthand causes. -/
def Causes (problem : Problem) : Prop := Literal.isShorthandError problem.code = true

section
open Cursor

variable {ctx : ParseContext} {cs : Text} {p q : Cursor} {t : Token} {ts : List Token}

variable (ctx cs) in
/-- A cursor in the tokens of a text at which only shorthand has been blamed. -/
abbrev Lenient : Cursor → List Token → Prop := Fair ctx (Token.scan cs) Causes

theorem Lenient.on (h : Lenient ctx cs p ts) : On cs p :=
  ⟨h.toReady, (Token.scans_scan cs).ordered.sublist h.suffix.sublist,
    fun t ht => Literal.scan_placed cs t (h.suffix.subset ht)⟩

/-- What is read has an extent. -/
theorem Lenient.length_pos {task : Task} {n : Node} {ns : List Node} (h : Lenient ctx cs p ts)
    (hr : Reads ctx task p ns q) (hn : n ∈ ns) : 0 < n.mark.length :=
  ((hr.laid h.on).fits none (none, n)
    (Node.mem_listingOf.2 ⟨n, hn, Node.mem_listing_self none n⟩)).length_pos

theorem Quoted.value {content : Text} (h : Quoted cs t content) (ht : t ∈ Token.scan cs) :
    t.value = content := by
  obtain ⟨hk, body, hs, hd⟩ := h
  exact Token.value_eq_content ht hk hs hd

theorem unquote_between {q : Char} (hq : q = '\'' ∨ q = '`' ∨ q = '"') (word : Text) :
    unquote (q :: word ++ [q]) = word := by
  rw [List.cons_append, unquote, if_pos ⟨hq, by simp⟩, List.dropLast_concat]

theorem unquote_bare {word : Text} (h : ∀ c ∈ word.head?, c ≠ '\'' ∧ c ≠ '`' ∧ c ≠ '"') :
    unquote word = word := by
  cases word with
  | nil => rfl
  | cons c word =>
    obtain ⟨h1, h2, h3⟩ := h c rfl
    rw [unquote, if_neg]
    rintro ⟨rfl | rfl | rfl, -⟩
    · exact h1 rfl
    · exact h2 rfl
    · exact h3 rfl

/-- A key is read, and blamed if it is not in double quotes. -/
theorem Names.key? {key : Text} (h : Names cs t key) (hp : Lenient ctx cs p (t :: ts)) :
    ∃ p', p.key? ctx = some (key, p') ∧ Lenient ctx cs p' (t :: ts) := by
  have hword : t.kind = .unknown → unquote t.value = key →
      ∃ p', p.key? ctx = some (key, p') ∧ Lenient ctx cs p' (t :: ts) := by
    intro hk hu
    refine ⟨p.blame ctx .bareKey, ?_, hp.blame rfl⟩
    have hpk : p.kind = .unknown := hp.kind.trans hk
    rw [Cursor.key?, if_neg (by rw [hpk]; simp), if_pos hpk, hp.current, hu]
  cases h with
  | quoted hq =>
    refine ⟨p, ?_, hp⟩
    rw [Cursor.key?, if_pos (hp.kind.trans hq.1), hp.current, hq.value hp.mem]
  | bare hb =>
    obtain ⟨hk, hs, hq⟩ := hb
    refine hword hk ?_
    rw [Token.value_eq_source hp.mem (by rw [hk]; simp) (by rw [hk]; simp) hs]
    exact unquote_bare hq
  | single hb =>
    obtain ⟨hk, hs⟩ := hb
    refine hword hk ?_
    rw [Token.value_eq_source hp.mem (by rw [hk]; simp) (by rw [hk]; simp) hs]
    exact unquote_between (Or.inl rfl) _

theorem Word.kind {word : Text} (h : Word cs t word) : t.kind = .unknown := by
  cases h with
  | bare hb => exact hb.1
  | single hb => exact hb.1
  | backtick hb => exact hb.1

/-- A value of one token is read as what it stands for. -/
theorem Scalar.atom? {v : Json} (h : Scalar cs t v) (hp : Lenient ctx cs p (t :: ts)) :
    ∃ a, p.atom? ctx = some (a, p) ∧ Node.atomJson a = v := by
  cases h with
  | null hk =>
    have hpk := hp.kind.trans hk
    exact ⟨.null, by simp only [Cursor.atom?, hpk], rfl⟩
  | @boolean b hk =>
    have hpk := hp.kind.trans hk
    refine ⟨.boolean b, ?_, rfl⟩
    cases b
    · simp only [Cursor.atom?, show p.kind = .false from hpk]
    · simp only [Cursor.atom?, show p.kind = .true from hpk]
  | @number n hk hs hn =>
    have hpk := hp.kind.trans hk
    have hval : p.current.value = Text.decimal n := by
      rw [hp.current]
      exact Token.value_eq_source hp.mem (by rw [hk]; simp) (by rw [hk]; simp) hs
    refine ⟨.number (.ofDecimal (decide (n < 0)) n.natAbs 0) (isIntegral (Text.decimal n)), ?_, ?_⟩
    · simp only [Cursor.atom?, hpk, hval, readNumber?_decimal]
    · rw [Node.atomJson, isIntegral_decimal, numberJson_decimal hn]
  | @string content hq =>
    have hpk := hp.kind.trans hq.1
    refine ⟨.string (String.ofList content), ?_, rfl⟩
    simp only [Cursor.atom?, hpk, hp.current, hq.value hp.mem]

variable (ctx cs) in
/-- What is read at a cursor whose next tokens denote a form. -/
def Yields : Form → List Token → Prop
  | .value v span, ts => ∀ p tl, tl ≠ [] → Lenient ctx cs p (ts ++ tl) →
      ∃ n q, Reads ctx .value p [n] q ∧ Lenient ctx cs q tl ∧ n.span = span ∧ n.toJson = v
  | .items vs, ts => ∀ p b p' z tl, tl ≠ [] → z.kind = .closeBracket → Before ctx p b p' →
      Lenient ctx cs p' (ts ++ z :: tl) →
      ∃ ns q, Reads ctx (.items b) p ns q ∧ Lenient ctx cs q (z :: tl) ∧ Node.itemsJson ns = vs
  | .object ms span, ts => ∀ p tl, tl ≠ [] → Lenient ctx cs p (ts ++ tl) →
      ∃ mark ns q, Reads ctx .value p [.object mark ns] q ∧ Lenient ctx cs q tl ∧ mark.span = span ∧
        List.Forall₂ Member.Parsed ms ns
  | .members ms, ts => ∀ p seen b p' z tl, tl ≠ [] → z.kind = .closeBrace →
      (ms.map Member.key).Nodup → (∀ m ∈ ms, m.key ∉ seen) → Before ctx p b p' →
      Lenient ctx cs p' (ts ++ z :: tl) →
      ∃ ns q, Reads ctx (.members seen b) p ns q ∧ Lenient ctx cs q (z :: tl) ∧
        List.Forall₂ Member.Parsed ms ns
  | .member m, ts => ∀ p seen b p' d tl, d.kind = .comma ∨ d.kind = .closeBrace → m.key ∉ seen →
      Before ctx p b p' → Lenient ctx cs p' (ts ++ d :: tl) →
      ∃ n q, (∀ ns r, Reads ctx (.members (m.key :: seen) true) q ns r →
          Reads ctx (.members seen b) p (n :: ns) r) ∧
        Lenient ctx cs q (d :: tl) ∧ m.Parsed n

theorem Scalar.yields {v : Json} (h : Scalar cs t v) : Yields ctx cs (.value v t.span) [t] := by
  intro p tl htl hp
  have hp : Lenient ctx cs p (t :: tl) := hp
  obtain ⟨a, ha, hv⟩ := h.atom? hp
  have hr : Reads ctx .value p _ _ := .atom ha
  refine ⟨_, _, hr, hp.fresh.advance (hp.ne_eof htl), ?_, ?_⟩
  · have hlen := Lenient.length_pos hp hr (List.mem_singleton_self _)
    calc (p.takeAtom ctx a).1.span = ⟨p.start, p.stop⟩ := Mark.span_sub hlen
      _ = t.span := by rw [hp.start, hp.stop]
  · rw [takeAtom, Node.toJson, hv]

/-- A container reaches from its opening to its closing token. -/
theorem Lenient.close_span {id start : Nat} {closer : TokenKind} {problem : Problem}
    (hq : Lenient ctx cs q (t :: ts)) (hk : t.kind = closer)
    (hlen : 0 < (q.close ctx id start closer problem).1.length) :
    (q.close ctx id start closer problem).1.span = ⟨start, t.span.stop⟩ := by
  have hclose : (q.close ctx id start closer problem).1 = ⟨id, start, q.stop - start⟩ := by
    rw [Cursor.close, if_pos (hq.kind.trans hk)]
  rw [hclose] at hlen ⊢
  rw [Mark.span_sub hlen, hq.stop]

/-- An array is read if its items are. -/
theorem Lenient.array {a z : Token} {tl : List Token} {ns : List Node}
    (hp : Lenient ctx cs p (a :: ts)) (ha : a.kind = .openBracket) (hz : z.kind = .closeBracket)
    (hr : Reads ctx (.items false) (p.fresh.2.advance ctx) ns q) (hq : Lenient ctx cs q (z :: tl)) :
    ∃ n q', Reads ctx .value p [n] q' ∧ Lenient ctx cs q' tl ∧ n.span = ⟨a.span.start, z.span.stop⟩ ∧
      n.toJson = .array (Node.itemsJson ns) := by
  have hv : Reads ctx .value p _ _ := .array (hp.kind.trans ha) hr
  have hlen := Lenient.length_pos hp hv (List.mem_singleton_self _)
  refine ⟨_, _, hv, hq.close hz (by simp) _ _ _, ?_, by rw [Node.toJson]⟩
  rw [← hp.start]
  exact Lenient.close_span hq hz hlen

/-- An object is read if its members are. -/
theorem Lenient.object {a z : Token} {tl : List Token} {ns : List Node}
    (hp : Lenient ctx cs p (a :: ts)) (ha : a.kind = .openBrace) (hz : z.kind = .closeBrace)
    (hr : Reads ctx (.members [] false) (p.fresh.2.advance ctx) ns q)
    (hq : Lenient ctx cs q (z :: tl)) :
    ∃ mark q', Reads ctx .value p [.object mark ns] q' ∧ Lenient ctx cs q' tl ∧
      mark.span = ⟨a.span.start, z.span.stop⟩ := by
  have hv : Reads ctx .value p _ _ := .object (hp.kind.trans ha) hr
  have hlen := Lenient.length_pos hp hv (List.mem_singleton_self _)
  refine ⟨_, _, hv, hq.close hz (by simp) _ _ _, ?_⟩
  rw [← hp.start]
  exact Lenient.close_span hq hz hlen

/-- A member with a value is read as a property. -/
theorem yields_valued {k c : Token} {key : Text} {v : Json} {span : Span} (hk : Names cs k key)
    (hc : c.kind = .colon) (ih : Yields ctx cs (.value v span) ts) :
    Yields ctx cs (.member ⟨key, ⟨k.span.start, span.stop⟩, span, v, false⟩) (k :: c :: ts) := by
  intro p seen b p' d tl _ hnew hb hp
  have hp : Lenient ctx cs p' (k :: c :: (ts ++ d :: tl)) := hp
  obtain ⟨p₁, hkey, hp₁⟩ := hk.key? hp
  obtain ⟨hcolon, -, hp₂⟩ := hp₁.property hc
  obtain ⟨n, q, hv, hq, hspan, hjson⟩ := ih _ (d :: tl) (by simp) hp₂
  have hkind : p₁.kind ≠ .eof := by rw [hp₁.kind]; exact hp₁.ne_eof (by simp)
  have hprop : Reads ctx (.property key false) p₁ _ q :=
    .valued hkind (fun hn => hn.1 hcolon) hv
  have hlen := Lenient.length_pos hp₁ hprop (List.mem_singleton_self _)
  refine ⟨_, q, fun ns r hr => hb.member hkey hnew hprop hr, hq, .property rfl ?_ rfl hspan hjson⟩
  rw [Mark.span_sub hlen, hp₁.start, ← hspan]
  rfl

/-- A member with a word for its value is read as a hole; the word is passed. -/
theorem yields_word {k c w : Token} {key content : Text} (hk : Names cs k key) (hc : c.kind = .colon)
    (hw : Word cs w content) :
    Yields ctx cs (.member ⟨key, ⟨k.span.start, w.span.stop⟩, w.span,
      .string (String.ofList content), true⟩) [k, c, w] := by
  intro p seen b p' d tl hd hnew hb hp
  have hp : Lenient ctx cs p' (k :: c :: w :: d :: tl) := hp
  obtain ⟨p₁, hkey, hp₁⟩ := hk.key? hp
  obtain ⟨hcolon, -, hp₂⟩ := hp₁.property hc
  have hunknown : ((p₁.passKey ctx false).passColon ctx).kind = .unknown := hp₂.kind.trans hw.kind
  have hkind : p₁.kind ≠ .eof := by rw [hp₁.kind]; exact hp₁.ne_eof (by simp)
  have hprop : Reads ctx (.property key false) p₁ _ _ :=
    .valueless hkind (fun hn => hn.1 hcolon) (by rw [hunknown]; rfl)
  rw [passNoValue, if_pos hunknown] at hprop
  -- The word is left over among the members, and skipping it ends at once.
  have hskip : Lenient ctx cs (((p₁.passKey ctx false).passColon ctx).recover ctx .braceExpected
      [.closeBrace, .comma]) (d :: tl) := by
    refine hp₂.recover rfl (by rw [hw.kind]; simp) ?_
    rcases hd with hd | hd <;> simp [hd]
  have hstop : (p₁.passKey ctx false).holeStop p₁.stop ≤ ((p₁.passKey ctx false).passColon ctx).start :=
    (holeStop_spec (Lenient.on hp₁) hkind false).2.2
  have hlen := Lenient.length_pos hp₁ hprop (List.mem_singleton_self _)
  refine ⟨_, _, fun ns r hr => hb.member hkey hnew hprop ?_, hskip, .hole rfl hp₁.start ?_ rfl⟩
  · exact .leftover (by rw [hunknown]; simp) (by rw [hunknown]; simp) (by rw [hunknown]; simp)
      (by rw [hunknown]; simp) hr
  · have hle := (Lenient.on hp₂).current.start_le_stop
    rw [hp₂.current] at hle
    rw [hp₂.start] at hstop
    exact (Mark.stop_sub (Nat.lt_of_sub_pos hlen).le).trans_le (hstop.trans hle)

/-- A comma before the closing brace is passed, and blamed. -/
theorem Lenient.trailing {d z : Token} {seen : List Text} (hq : Lenient ctx cs q (d :: z :: ts))
    (hd : d.kind = .comma) (hz : z.kind = .closeBrace) :
    ∃ r, Reads ctx (.members seen true) q [] r ∧ Lenient ctx cs r (z :: ts) := by
  have hk := hq.kind.trans hd
  have hadv : Lenient ctx cs (q.advance ctx) (z :: ts) := hq.advance (hq.ne_eof (by simp))
  have hsep : q.separate ctx true .propertyExpected = q.advance ctx := by simp [separate, hk]
  refine ⟨_, .membersTrailing hk (by rw [hsep]; exact hadv.kind.trans hz), ?_⟩
  rw [hsep, noteTrailing, if_pos rfl]
  exact hadv.report (show Causes .trailingComma from rfl) _

/-- **A literal is parsed into what it denotes, and only shorthand is blamed.** -/
theorem Denotes.yields {form : Form} (h : Denotes cs form ts) : Yields ctx cs form ts := by
  induction h with
  | scalar ht => exact ht.yields
  | @emptyArray a z ha hz =>
    intro p tl htl hp
    have hp : Lenient ctx cs p (a :: z :: tl) := hp
    have h₁ : Lenient ctx cs _ _ := hp.fresh.advance (hp.ne_eof (by simp))
    exact hp.array ha hz (.itemsEnd (Or.inl (h₁.kind.trans hz))) h₁
  | @array a ts z vs ha hz _ ih =>
    intro p tl htl hp
    have hp : Lenient ctx cs p (a :: (ts ++ z :: tl)) := by simpa using hp
    have h₁ : Lenient ctx cs _ _ := hp.fresh.advance (hp.ne_eof (by simp))
    obtain ⟨ns, q, hr, hq, rfl⟩ := ih _ false _ z tl htl hz .first h₁
    exact hp.array ha hz hr hq
  | nested h ih =>
    intro p tl htl hp
    obtain ⟨mark, ns, q, hr, hq, hspan, hns⟩ := ih p tl htl hp
    exact ⟨_, q, hr, hq, hspan, objectJson_parsed hns h.nodup mark⟩
  | lastItem h ih =>
    intro p b p' z tl htl hz hb hp
    obtain ⟨n, q, hv, hq, -, hn⟩ := ih p' (z :: tl) (by simp) hp
    obtain ⟨t, us, rfl, ht⟩ := h.head
    refine ⟨[n], q, hb.item (by rw [hp.kind]; exact ht) hv (.itemsEnd (Or.inl (hq.kind.trans hz))),
      hq, ?_⟩
    rw [Node.itemsJson, hn, Node.itemsJson]
  | @item ts c us v vs span h hc _ ih ih' =>
    intro p b p' z tl htl hz hb hp
    rw [List.append_assoc] at hp
    obtain ⟨n, q, hv, hq, -, hn⟩ := ih p' (c :: us ++ z :: tl) (by simp) hp
    obtain ⟨t, us', rfl, ht⟩ := h.head
    obtain ⟨ns, r, hr, hr', hns⟩ := ih' q true _ z tl htl hz (.next (hq.kind.trans hc))
      (hq.advance (by rw [hc]; simp))
    refine ⟨n :: ns, r, hb.item (by rw [hp.kind]; exact ht) hv hr, hr', ?_⟩
    rw [Node.itemsJson, hn, hns]
  | @emptyObject a z ha hz =>
    intro p tl htl hp
    have hp : Lenient ctx cs p (a :: z :: tl) := hp
    have h₁ : Lenient ctx cs _ _ := hp.fresh.advance (hp.ne_eof (by simp))
    obtain ⟨mark, q, hv, hq, hspan⟩ :=
      hp.object ha hz (.membersEnd (Or.inl (h₁.kind.trans hz))) h₁
    exact ⟨mark, [], q, hv, hq, hspan, .nil⟩
  | @object a ts z ms ha hz _ hnd ih =>
    intro p tl htl hp
    have hp : Lenient ctx cs p (a :: (ts ++ z :: tl)) := by simpa using hp
    have h₁ : Lenient ctx cs _ _ := hp.fresh.advance (hp.ne_eof (by simp))
    obtain ⟨ns, q, hr, hq, hns⟩ := ih _ [] false _ z tl htl hz hnd (by simp) .first h₁
    obtain ⟨mark, q', hv, hq', hspan⟩ := hp.object ha hz hr hq
    exact ⟨mark, ns, q', hv, hq', hspan, hns⟩
  | @lastMember ts m _ ih =>
    intro p seen b p' z tl htl hz hnd hnew hb hp
    obtain ⟨n, q, hm, hq, hn⟩ := ih p seen b p' z tl (Or.inr hz) (hnew m (List.mem_cons_self ..)) hb hp
    exact ⟨[n], q, hm [] q (.membersEnd (Or.inl (hq.kind.trans hz))), hq, .cons hn .nil⟩
  | @trailing ts m d _ hd ih =>
    intro p seen b p' z tl htl hz hnd hnew hb hp
    rw [List.append_assoc] at hp
    obtain ⟨n, q, hm, hq, hn⟩ := ih p seen b p' d (z :: tl) (Or.inl hd)
      (hnew m (List.mem_cons_self ..)) hb hp
    obtain ⟨r, hr, hr'⟩ := hq.trailing hd hz
    exact ⟨[n], r, hm [] r hr, hr', .cons hn .nil⟩
  | @next ts m d us ms _ hd _ ih ih' =>
    intro p seen b p' z tl htl hz hnd hnew hb hp
    obtain ⟨hfresh, hnd⟩ := List.nodup_cons.1 hnd
    rw [List.append_assoc] at hp
    obtain ⟨n, q, hm, hq, hn⟩ := ih p seen b p' d (us ++ z :: tl) (Or.inl hd)
      (hnew m (List.mem_cons_self ..)) hb hp
    have hnew' : ∀ x ∈ ms, x.key ∉ m.key :: seen := by
      intro x hx hmem
      rcases List.mem_cons.1 hmem with he | hmem
      · exact hfresh (he ▸ List.mem_map_of_mem hx)
      · exact hnew x (List.mem_cons_of_mem _ hx) hmem
    obtain ⟨ns, r, hr, hr', hns⟩ := ih' q (m.key :: seen) true _ z tl htl hz hnd hnew'
      (.next (hq.kind.trans hd)) (hq.advance (by rw [hd]; simp))
    exact ⟨n :: ns, r, hm ns r hr, hr', .cons hn hns⟩
  | valued hk hc _ ih => exact yields_valued hk hc ih
  | word hk hc hw => exact yields_word hk hc hw

end

end Shorthand

end AnnotatedJson
