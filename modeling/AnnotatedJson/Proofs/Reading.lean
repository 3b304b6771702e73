/-
  Reading a literal, as rules.

  The functions that read values, items, members and properties carry a bound on
  their depth.  Here they become the rules of one relation without a bound, and
  statements about every parse are proved by induction over them.

  * `Cursor.Reads` are the rules;
  * `Reads.moves`: a reading is made of moves of the cursor;
  * `follows`: with a large enough bound, the functions follow the rules;
  * `Literal.parse_eq`: the parse of a text is one reading of a value.
-/
import Mathlib
import AnnotatedJson.Proofs.Cursor

namespace AnnotatedJson.Cursor

variable (ctx : ParseContext)

/-- What is to be read. -/
inductive Task where
  | value
  | items (needsComma : Bool)
  | members (seen : List Text) (needsComma : Bool)
  | property (key : Text) (repeated : Bool)

/-! ## Parts of the rules -/

/-- Whether a value starts with a token. -/
def startsValue : TokenKind → Bool
  | .openBrace | .openBracket | .string | .number | .true | .false | .null => Bool.true
  | _ => Bool.false

/-- The atom that the current token stands for; a number that cannot be read is a
    problem. -/
def atom? (p : Cursor) : Option (Atom × Cursor) :=
  match p.kind with
  | .string => some (.string (String.ofList p.current.value), p)
  | .number =>
    match readNumber? p.current.value with
    | some x => some (.number x (isIntegral p.current.value), p)
    | none => some (.number (.zero Bool.false) (isIntegral p.current.value),
      p.blame ctx .numberFormat)
  | .true => some (.boolean Bool.true, p)
  | .false => some (.boolean Bool.false, p)
  | .null => some (.null, p)
  | _ => none

/-- Passes the comma before an element; a comma without an element before it and a
    missing comma are problems. -/
def separate (p : Cursor) (needsComma : Bool) (problem : Problem) : Cursor :=
  if p.kind = .comma then (if needsComma then p else p.blame ctx problem).advance ctx
  else if needsComma then p.blame ctx .commaExpected
  else p

/-- Whether another element follows, rather than the end or a trailing comma. -/
def Continues (p : Cursor) (needsComma : Bool) (problem : Problem) (closer : TokenKind) : Prop :=
  p.kind ≠ closer ∧ p.kind ≠ .eof ∧
    ¬ (p.kind = .comma ∧ (p.separate ctx needsComma problem).kind = closer)

/-- Records a trailing comma, if there was an element before it. -/
def noteTrailing (p : Cursor) (needsComma : Bool) (comma : Nat) : Cursor :=
  if needsComma then p.report .trailingComma ⟨comma, comma + 1⟩ else p

/-- The node of a key. -/
def keyNode (p : Cursor) (key : Text) : Node :=
  .atom ⟨p.nextId + 1, p.start, p.stop - p.start⟩ (.string (String.ofList key))

/-- Passes a key; a repeated one is a problem. -/
def passKey (p : Cursor) (repeated : Bool) : Cursor :=
  let q := p.fresh.2.fresh.2.advance ctx
  if repeated then q.report .duplicateKey ⟨p.start, p.stop⟩ else q

/-- The offset of the colon at the cursor. -/
def colon? (p : Cursor) : Option Nat := if p.kind = .colon then some p.start else none

/-- Passes a colon; a missing one is a problem. -/
def passColon (p : Cursor) : Cursor :=
  if p.kind = .colon then p.advance ctx else p.blame ctx .colonExpected

/-- Whether the token after a key without a colon is the key of the next line. -/
def NextLine (p : Cursor) : Prop := p.kind ≠ .colon ∧ p.kind = .string ∧ p.afterBreak = true

instance (p : Cursor) : Decidable p.NextLine := inferInstanceAs (Decidable (_ ∧ _ ∧ _))

/-- Passes what stands in place of a value.  Shorthand is left to the members. -/
def passNoValue (p : Cursor) : Cursor :=
  if p.kind = .unknown then p else p.recover ctx .valueExpected [.closeBrace, .comma]

/-- The end of a property without a value. -/
def holeStop (p : Cursor) (keyStop : Nat) : Nat :=
  match p.colon? with
  | some c => c + 1
  | none => keyStop

/-! ## The rules -/

/-- The rules: what is read at a cursor, and the cursor after it.  A value is a
    list of at most one node, a property a list of one. -/
inductive Reads : Task → Cursor → List Node → Cursor → Prop
  | object {p ns q} : p.kind = .openBrace →
      Reads (.members [] false) (p.fresh.2.advance ctx) ns q →
      Reads .value p [.object (q.close ctx p.nextId p.start .closeBrace .braceExpected).1 ns]
        (q.close ctx p.nextId p.start .closeBrace .braceExpected).2
  | array {p ns q} : p.kind = .openBracket →
      Reads (.items false) (p.fresh.2.advance ctx) ns q →
      Reads .value p [.array (q.close ctx p.nextId p.start .closeBracket .bracketExpected).1 ns]
        (q.close ctx p.nextId p.start .closeBracket .bracketExpected).2
  | atom {p a q} : p.atom? ctx = some (a, q) →
      Reads .value p [(q.takeAtom ctx a).1] (q.takeAtom ctx a).2
  | noValue {p} : startsValue p.kind = false → Reads .value p [] p
  | itemsEnd {b p} : p.kind = .closeBracket ∨ p.kind = .eof → Reads (.items b) p [] p
  | itemsTrailing {b p} : p.kind = .comma →
      (p.separate ctx b .valueExpected).kind = .closeBracket →
      Reads (.items b) p [] ((p.separate ctx b .valueExpected).noteTrailing b p.start)
  | item {b p n q ns r} : p.Continues ctx b .valueExpected .closeBracket →
      Reads .value (p.separate ctx b .valueExpected) [n] q → Reads (.items true) q ns r →
      Reads (.items b) p (n :: ns) r
  | noItem {b p ns r} : p.Continues ctx b .valueExpected .closeBracket →
      startsValue (p.separate ctx b .valueExpected).kind = false →
      Reads (.items true)
        ((p.separate ctx b .valueExpected).recover ctx .valueExpected [.closeBracket, .comma]) ns r →
      Reads (.items b) p ns r
  | membersEnd {seen b p} : p.kind = .closeBrace ∨ p.kind = .eof → Reads (.members seen b) p [] p
  | membersTrailing {seen b p} : p.kind = .comma →
      (p.separate ctx b .propertyExpected).kind = .closeBrace →
      Reads (.members seen b) p [] ((p.separate ctx b .propertyExpected).noteTrailing b p.start)
  | leftover {seen p ns r} : p.kind ≠ .closeBrace → p.kind ≠ .eof → p.kind ≠ .comma →
      p.kind ≠ .string →
      Reads (.members seen true) (p.recover ctx .braceExpected [.closeBrace, .comma]) ns r →
      Reads (.members seen true) p ns r
  | member {seen b p key p' n q ns r} : p.Continues ctx b .propertyExpected .closeBrace →
      (p.kind = .comma ∨ b = false ∨ p.kind = .string) →
      (p.separate ctx b .propertyExpected).key? ctx = some (key, p') →
      Reads (.property key (seen.contains key)) p' [n] q →
      Reads (.members (key :: seen) true) q ns r → Reads (.members seen b) p (n :: ns) r
  | noMember {seen b p ns r} : p.Continues ctx b .propertyExpected .closeBrace →
      (p.kind = .comma ∨ b = false ∨ p.kind = .string) →
      (p.separate ctx b .propertyExpected).key? ctx = none →
      Reads (.members seen true)
        ((p.separate ctx b .propertyExpected).recover ctx .propertyExpected [.closeBrace, .comma])
        ns r →
      Reads (.members seen b) p ns r
  | nextLine {key rep p} : p.kind ≠ .eof → (p.passKey ctx rep).NextLine →
      Reads (.property key rep) p [.hole ⟨p.nextId, p.start, p.stop - p.start⟩ none (p.keyNode key)]
        ((p.passKey ctx rep).passColon ctx)
  | valued {key rep p v q} : p.kind ≠ .eof → ¬ (p.passKey ctx rep).NextLine →
      Reads .value ((p.passKey ctx rep).passColon ctx) [v] q →
      Reads (.property key rep) p
        [.property ⟨p.nextId, p.start, v.stop - p.start⟩ (p.passKey ctx rep).colon?
          (p.keyNode key) v] q
  | valueless {key rep p} : p.kind ≠ .eof → ¬ (p.passKey ctx rep).NextLine →
      startsValue ((p.passKey ctx rep).passColon ctx).kind = false →
      Reads (.property key rep) p
        [.hole ⟨p.nextId, p.start, (p.passKey ctx rep).holeStop p.stop - p.start⟩
          (p.passKey ctx rep).colon? (p.keyNode key)]
        (((p.passKey ctx rep).passColon ctx).passNoValue ctx)

/-! ## Readings are made of moves -/

section
variable {ctx} {all : List Token} {p q : Cursor}

theorem startsValue_ne_eof {k : TokenKind} (h : startsValue k = true) : k ≠ .eof := by
  rintro rfl; cases h

variable (ctx) in
/-- A comma that is passed makes the stream shorter. -/
theorem separate_shrinks (hp : Ready p) (h : p.kind = .comma) (b : Bool) (problem : Problem) :
    (p.separate ctx b problem).rest.length < p.rest.length := by
  have hk : p.kind ≠ .eof := by rw [h]; simp
  rw [separate, if_pos h]
  split
  · exact advance_shrinks ctx hp hk
  · have := advance_shrinks ctx (hp.of_stream (blame_stream ctx p problem)) (by simpa using hk)
    simpa using this

variable (ctx) in
theorem separate_stream (h : p.kind ≠ .comma) (b : Bool) (problem : Problem) :
    (p.separate ctx b problem).stream = p.stream := by
  rw [separate, if_neg h]
  split <;> simp

theorem moves_separate (ha : p.stream ⊆ all) (b : Bool) (problem : Problem) :
    Moves ctx all p (p.separate ctx b problem) := by
  unfold separate
  split
  · next hk =>
    have hk' : p.kind ≠ .eof := by rw [hk]; simp
    split
    · exact moves_advance hk'
    · exact (moves_blame ha problem).trans (moves_advance (by simpa using hk'))
  · split
    · exact moves_blame ha _
    · exact .refl

theorem moves_noteTrailing {t : Token} (ht : t ∈ all) (hk : t.kind = .comma) (b : Bool) :
    Moves ctx all p (p.noteTrailing b t.span.start) := by
  unfold noteTrailing
  split
  · exact (Move.report (.comma ht hk)).moves
  · exact .refl

/-- An atom is read where a value starts; at most a problem is recorded. -/
theorem atom?_spec {a : Atom} (h : p.atom? ctx = some (a, q)) :
    startsValue p.kind = true ∧ (q = p ∨ q = p.blame ctx .numberFormat) := by
  unfold atom? at h
  split at h
  · next hk => cases h; exact ⟨by rw [hk]; rfl, Or.inl rfl⟩
  · next hk =>
    split at h <;> cases h
    · exact ⟨by rw [hk]; rfl, Or.inl rfl⟩
    · exact ⟨by rw [hk]; rfl, Or.inr rfl⟩
  · next hk => cases h; exact ⟨by rw [hk]; rfl, Or.inl rfl⟩
  · next hk => cases h; exact ⟨by rw [hk]; rfl, Or.inl rfl⟩
  · next hk => cases h; exact ⟨by rw [hk]; rfl, Or.inl rfl⟩
  · cases h

theorem moves_takeAtom (hk : p.kind ≠ .eof) (a : Atom) : Moves ctx all p (p.takeAtom ctx a).2 :=
  Move.fresh.moves.trans (moves_advance hk)

theorem moves_close (ha : p.stream ⊆ all) (id start : Nat) {closer : TokenKind} (hc : closer ≠ .eof)
    (problem : Problem) : Moves ctx all p (p.close ctx id start closer problem).2 := by
  unfold close
  split
  · next hk => exact moves_advance (hk ▸ hc)
  · exact moves_blame ha problem

theorem key?_spec {key : Text} (h : p.key? ctx = some (key, q)) :
    (p.kind = .string ∧ key = p.current.value ∧ q = p) ∨
      (p.kind = .unknown ∧ key = unquote p.current.value ∧ q = p.blame ctx .bareKey) := by
  unfold key? at h
  split_ifs at h with h1 h2 <;> cases h
  · exact Or.inl ⟨h1, rfl, rfl⟩
  · exact Or.inr ⟨h2, rfl, rfl⟩

theorem moves_key? (ha : p.stream ⊆ all) {key : Text} (h : p.key? ctx = some (key, q)) :
    Moves ctx all p q := by
  rcases key?_spec h with ⟨-, -, rfl⟩ | ⟨-, -, rfl⟩
  · exact .refl
  · exact moves_blame ha _

theorem moves_passKey (ha : p.stream ⊆ all) (hk : p.kind ≠ .eof) (rep : Bool) :
    Moves ctx all p (p.passKey ctx rep) := by
  have h : Moves ctx all p (p.fresh.2.fresh.2.advance ctx) :=
    (Move.fresh.moves.trans Move.fresh.moves).trans (moves_advance hk)
  unfold passKey
  split
  · exact h.trans (Move.report (.token (ha (List.mem_cons_self ..)) hk)).moves
  · exact h

theorem moves_passColon (ha : p.stream ⊆ all) : Moves ctx all p (p.passColon ctx) := by
  unfold passColon
  split
  · next hk => exact moves_advance (by rw [hk]; simp)
  · exact moves_blame ha _

theorem moves_passNoValue (ha : p.stream ⊆ all) : Moves ctx all p (p.passNoValue ctx) := by
  unfold passNoValue
  split
  · exact .refl
  · exact moves_recover ha _ _

theorem moves_open (hk : p.kind ≠ .eof) : Moves ctx all p (p.fresh.2.advance ctx) :=
  Move.fresh.moves.trans (moves_advance hk)

/-- **A reading is made of moves.** -/
theorem Reads.moves {task : Task} {out : List Node} (h : Reads ctx task p out q) (hp : Ready p)
    (ha : p.stream ⊆ all) : Moves ctx all p q := by
  induction h with
  | object hk _ ih | array hk _ ih =>
    exact (moves_open (by rw [hk]; simp)).next hp ha fun hp ha =>
      (ih hp ha).next hp ha fun _ ha => moves_close ha _ _ (by simp) _
  | atom h =>
    obtain ⟨hv, rfl | rfl⟩ := atom?_spec h
    · exact moves_takeAtom (startsValue_ne_eof hv) _
    · exact (moves_blame ha _).trans (moves_takeAtom (by simpa using startsValue_ne_eof hv) _)
  | noValue _ | itemsEnd _ | membersEnd _ => exact .refl
  | itemsTrailing hk _ | membersTrailing hk _ =>
    exact (moves_separate ha _ _).trans (moves_noteTrailing (ha (List.mem_cons_self ..)) hk _)
  | item _ _ _ ih₁ ih₂ =>
    exact (moves_separate ha _ _).next hp ha fun hp ha => (ih₁ hp ha).next hp ha ih₂
  | noItem _ _ _ ih | noMember _ _ _ _ ih =>
    exact (moves_separate ha _ _).next hp ha fun hp ha => (moves_recover ha _ _).next hp ha ih
  | leftover _ _ _ _ _ ih => exact (moves_recover ha _ _).next hp ha ih
  | member _ _ hkey _ _ ih₁ ih₂ =>
    exact (moves_separate ha _ _).next hp ha fun hp ha => (moves_key? ha hkey).next hp ha
      fun hp ha => (ih₁ hp ha).next hp ha ih₂
  | nextLine hk _ =>
    exact (moves_passKey ha hk _).next hp ha fun _ ha => moves_passColon ha
  | valued hk _ _ ih =>
    exact (moves_passKey ha hk _).next hp ha fun hp ha => (moves_passColon ha).next hp ha ih
  | valueless hk _ _ =>
    exact (moves_passKey ha hk _).next hp ha fun hp ha => (moves_passColon ha).next hp ha
      fun _ ha => moves_passNoValue ha

/-! The same over the tokens that the cursor itself has to read. -/

section
variable (ctx p)

theorem goes_blame (problem : Problem) : Moves ctx p.stream p (p.blame ctx problem) :=
  moves_blame (List.Subset.refl _) problem

theorem goes_recover (problem : Problem) (stops : List TokenKind) :
    Moves ctx p.stream p (p.recover ctx problem stops) :=
  moves_recover (List.Subset.refl _) problem stops

theorem goes_separate (b : Bool) (problem : Problem) :
    Moves ctx p.stream p (p.separate ctx b problem) := moves_separate (List.Subset.refl _) b problem

theorem goes_open (hk : p.kind ≠ .eof) : Moves ctx p.stream p (p.fresh.2.advance ctx) :=
  moves_open hk

theorem goes_passKey (hk : p.kind ≠ .eof) (rep : Bool) : Moves ctx p.stream p (p.passKey ctx rep) :=
  moves_passKey (List.Subset.refl _) hk rep

theorem goes_passColon : Moves ctx p.stream p (p.passColon ctx) :=
  moves_passColon (List.Subset.refl _)

theorem goes_passNoValue : Moves ctx p.stream p (p.passNoValue ctx) :=
  moves_passNoValue (List.Subset.refl _)

end

theorem goes_key? {key : Text} (h : p.key? ctx = some (key, q)) : Moves ctx p.stream p q :=
  moves_key? (List.Subset.refl _) h

theorem Reads.goes {task : Task} {out : List Node} (h : Reads ctx task p out q) (hp : Ready p) :
    Moves ctx p.stream p q := h.moves hp (List.Subset.refl _)

variable (ctx) in
theorem open_shrinks (hp : Ready p) (hk : p.kind ≠ .eof) :
    (p.fresh.2.advance ctx).rest.length < p.rest.length :=
  advance_shrinks ctx (hp.of_stream (fresh_stream p)) hk

variable (ctx) in
theorem passKey_shrinks (hp : Ready p) (hk : p.kind ≠ .eof) (rep : Bool) :
    (p.passKey ctx rep).rest.length < p.rest.length := by
  have h := open_shrinks ctx (hp.of_stream (fresh_stream p)) hk
  unfold passKey
  split
  · simpa using h
  · exact h

/-- A value takes at least one token. -/
theorem Reads.value_shrinks {n : Node} (h : Reads ctx .value p [n] q) (hp : Ready p) :
    q.rest.length < p.rest.length := by
  cases h with
  | @object _ ns r hk h | @array _ ns r hk h =>
    have hk' : p.kind ≠ .eof := by rw [hk]; simp
    have hp₁ := (goes_open ctx p hk').ready hp
    have h₂ := h.goes hp₁
    have hs := h₂.subset hp₁ (List.Subset.refl _)
    exact lt_of_le_of_lt ((h₂.trans (moves_close hs _ _ (by simp) _)).length_le hp₁)
      (open_shrinks ctx hp hk')
  | @atom _ a r h =>
    obtain ⟨hv, hr⟩ := atom?_spec h
    have hrs : r.stream = p.stream := by rcases hr with rfl | rfl <;> simp
    have hrk : r.kind = p.kind := by rcases hr with rfl | rfl <;> simp
    have h1 := open_shrinks ctx (hp.of_stream hrs) (by rw [hrk]; exact startsValue_ne_eof hv)
    rwa [(List.cons.inj hrs).2] at h1

/-- A property takes at least one token. -/
theorem Reads.property_shrinks {key : Text} {rep : Bool} {out : List Node}
    (h : Reads ctx (.property key rep) p out q) (hp : Ready p) : q.rest.length < p.rest.length := by
  suffices p.kind ≠ .eof ∧ (Ready (p.passKey ctx rep) →
      Moves ctx (p.passKey ctx rep).stream (p.passKey ctx rep) q) by
    have hr := (goes_passKey ctx p this.1 rep).ready hp
    exact lt_of_le_of_lt ((this.2 hr).length_le hr) (passKey_shrinks ctx hp this.1 rep)
  cases h with
  | nextLine hk _ => exact ⟨hk, fun _ => goes_passColon ctx _⟩
  | valued hk _ hv =>
    exact ⟨hk, fun hr => (goes_passColon ctx _).next hr (List.Subset.refl _) hv.moves⟩
  | valueless hk _ _ =>
    exact ⟨hk, fun hr => (goes_passColon ctx _).next hr (List.Subset.refl _)
      fun _ ha => moves_passNoValue ha⟩

end

/-! ## The functions follow the rules -/

/-- Reads with a bound on the depth. -/
def run (fuel : Nat) : Task → Cursor → List Node × Cursor
  | .value, p => ((value ctx fuel p).1.toList, (value ctx fuel p).2)
  | .items b, p => items ctx fuel b p
  | .members seen b, p => members ctx fuel seen b p
  | .property key rep, p => ([(property ctx fuel key rep p).1], (property ctx fuel key rep p).2)

theorem value_succ (fuel : Nat) (p : Cursor) : value ctx (fuel + 1) p =
    if p.kind = .openBrace then
      (some (.object
        ((members ctx fuel [] false (p.fresh.2.advance ctx)).2.close ctx p.nextId p.start
          .closeBrace .braceExpected).1 (members ctx fuel [] false (p.fresh.2.advance ctx)).1),
        ((members ctx fuel [] false (p.fresh.2.advance ctx)).2.close ctx p.nextId p.start
          .closeBrace .braceExpected).2)
    else if p.kind = .openBracket then
      (some (.array ((items ctx fuel false (p.fresh.2.advance ctx)).2.close ctx p.nextId p.start
          .closeBracket .bracketExpected).1 (items ctx fuel false (p.fresh.2.advance ctx)).1),
        ((items ctx fuel false (p.fresh.2.advance ctx)).2.close ctx p.nextId p.start
          .closeBracket .bracketExpected).2)
    else match p.atom? ctx with
      | some (a, q) => (some (q.takeAtom ctx a).1, (q.takeAtom ctx a).2)
      | none => (none, p) := by
  rw [value]
  unfold atom?
  split
  case h_4 hk =>
    simp only [hk, reduceCtorEq, ↓reduceIte, takeNumber]
    cases readNumber? p.current.value <;> rfl
  all_goals simp_all [fresh, start]

theorem items_succ (fuel : Nat) (b : Bool) (p : Cursor) : items ctx (fuel + 1) b p =
    if p.kind = .closeBracket ∨ p.kind = .eof then ([], p)
    else if p.kind = .comma ∧ (p.separate ctx b .valueExpected).kind = .closeBracket then
      ([], (p.separate ctx b .valueExpected).noteTrailing b p.start)
    else match value ctx fuel (p.separate ctx b .valueExpected) with
      | (some n, q) => (n :: (items ctx fuel true q).1, (items ctx fuel true q).2)
      | (none, q) =>
        items ctx fuel true (q.recover ctx .valueExpected [.closeBracket, .comma]) := by
  rw [items]; rfl

theorem members_succ (fuel : Nat) (seen : List Text) (b : Bool) (p : Cursor) :
    members ctx (fuel + 1) seen b p =
    if p.kind = .closeBrace ∨ p.kind = .eof then ([], p)
    else if p.kind = .comma ∧ (p.separate ctx b .propertyExpected).kind = .closeBrace then
      ([], (p.separate ctx b .propertyExpected).noteTrailing b p.start)
    else if p.kind ≠ .comma ∧ b = true ∧ p.kind ≠ .string then
      members ctx fuel seen b (p.recover ctx .braceExpected [.closeBrace, .comma])
    else match (p.separate ctx b .propertyExpected).key? ctx with
      | some (key, q) =>
        ((property ctx fuel key (seen.contains key) q).1 ::
            (members ctx fuel (key :: seen) true (property ctx fuel key (seen.contains key) q).2).1,
          (members ctx fuel (key :: seen) true (property ctx fuel key (seen.contains key) q).2).2)
      | none => members ctx fuel seen true ((p.separate ctx b .propertyExpected).recover ctx
          .propertyExpected [.closeBrace, .comma]) := by
  rw [members]
  simp only [Bool.not_eq_eq_eq_not, Bool.not_true, decide_eq_false_iff_not]
  rfl

theorem passColon_eq (p : Cursor) :
    (if p.colon?.isSome then p.advance ctx else p.blame ctx .colonExpected) = p.passColon ctx := by
  unfold colon? passColon
  split <;> rfl

theorem nextLine_iff (p : Cursor) : p.NextLine ↔
    p.colon?.isNone = true ∧ (p.passColon ctx).kind = .string ∧
      (p.passColon ctx).afterBreak = true := by
  unfold NextLine colon? passColon
  split <;> simp_all

theorem property_succ (fuel : Nat) (key : Text) (rep : Bool) (p : Cursor) :
    property ctx (fuel + 1) key rep p =
    if (p.passKey ctx rep).NextLine then
      (.hole ⟨p.nextId, p.start, p.stop - p.start⟩ none (p.keyNode key),
        (p.passKey ctx rep).passColon ctx)
    else match value ctx fuel ((p.passKey ctx rep).passColon ctx) with
      | (some v, q) =>
        (.property ⟨p.nextId, p.start, v.stop - p.start⟩ (p.passKey ctx rep).colon?
          (p.keyNode key) v, q)
      | (none, q) =>
        (.hole ⟨p.nextId, p.start, (p.passKey ctx rep).holeStop p.stop - p.start⟩
          (p.passKey ctx rep).colon? (p.keyNode key), q.passNoValue ctx) := by
  simp only [nextLine_iff ctx]
  rw [property, ← passColon_eq]
  congr 1

/-- The bound that a task needs at a cursor. -/
def Task.bound : Task → Cursor → Nat
  | .value, p => 3 * p.rest.length + 1
  | .items _, p => 3 * p.rest.length + 2
  | .members _ _, p => 3 * p.rest.length + 2
  | .property _ _, p => 3 * p.rest.length

/-- A property starts at a token. -/
def Task.Starts : Task → Cursor → Prop
  | .property _ _, p => p.kind ≠ .eof
  | _, _ => True

section
variable {ctx} {p : Cursor}

theorem atom?_eq_none (h : p.atom? ctx = none) (h₁ : p.kind ≠ .openBrace)
    (h₂ : p.kind ≠ .openBracket) : startsValue p.kind = false := by
  unfold atom? at h
  split at h
  case h_2 => split at h <;> cases h
  case h_6 => cases hk : p.kind <;> simp_all [startsValue]
  all_goals cases h

/-- The stream is shorter where another element is looked for in vain. -/
theorem recover_separate_shrinks (hp : Ready p) (b : Bool) {problem : Problem} {closer : TokenKind}
    (hc : p.Continues ctx b problem closer) (problem' : Problem) :
    ((p.separate ctx b problem).recover ctx problem' [closer, .comma]).rest.length <
      p.rest.length := by
  obtain ⟨h1, h2, h3⟩ := hc
  have hs := (goes_separate ctx p b problem).ready hp
  by_cases hk : p.kind = .comma
  · -- The comma has been taken.
    exact lt_of_le_of_lt ((goes_recover ctx _ problem' [closer, .comma]).length_le hs)
      (separate_shrinks ctx hp hk b problem)
  · -- The token itself is passed.
    have hss := separate_stream ctx hk b problem
    have hkk : (p.separate ctx b problem).kind = p.kind := by
      unfold kind; rw [(List.cons.inj hss).1]
    have hr := recover_shrinks ctx hs problem' [closer, .comma] (by rw [hkk]; exact h2)
      (by simp [hkk, h1, hk])
    rwa [(List.cons.inj hss).2] at hr

theorem Reads.value_nil {q : Cursor} (h : Reads ctx .value p [] q) :
    q = p ∧ startsValue p.kind = false := by
  cases h with
  | noValue h => exact ⟨rfl, h⟩

variable (ctx) in
/-- With this bound, every task that it suffices for follows the rules. -/
def Follows (fuel : Nat) : Prop :=
  ∀ (task : Task) (p : Cursor), Ready p → task.Starts p → task.bound p ≤ fuel →
    Reads ctx task p (run ctx fuel task p).1 (run ctx fuel task p).2

theorem Follows.value {fuel : Nat} (ih : Follows ctx fuel) (hp : Ready p)
    (hb : Task.value.bound p ≤ fuel + 1) :
    Reads ctx .value p (run ctx (fuel + 1) .value p).1 (run ctx (fuel + 1) .value p).2 := by
  simp only [Task.bound] at hb
  simp only [run]
  rw [value_succ]
  split_ifs with h₁ h₂
  · have hk : p.kind ≠ .eof := by rw [h₁]; simp
    have hl := open_shrinks ctx hp hk
    exact .object h₁ (ih (.members [] false) _ ((goes_open ctx p hk).ready hp) trivial
      (by simp only [Task.bound]; omega))
  · have hk : p.kind ≠ .eof := by rw [h₂]; simp
    have hl := open_shrinks ctx hp hk
    exact .array h₂ (ih (.items false) _ ((goes_open ctx p hk).ready hp) trivial
      (by simp only [Task.bound]; omega))
  · split
    · next h => exact .atom h
    · next h => exact .noValue (atom?_eq_none h h₁ h₂)

theorem Follows.items {fuel : Nat} (ih : Follows ctx fuel) (hp : Ready p) {b : Bool}
    (hb : (Task.items b).bound p ≤ fuel + 1) :
    Reads ctx (.items b) p (run ctx (fuel + 1) (.items b) p).1
      (run ctx (fuel + 1) (.items b) p).2 := by
  simp only [Task.bound] at hb
  simp only [run]
  rw [items_succ]
  split_ifs with h₁ h₂
  · exact .itemsEnd h₁
  · exact .itemsTrailing h₂.1 h₂.2
  · have hc : p.Continues ctx b .valueExpected .closeBracket :=
      ⟨fun h => h₁ (Or.inl h), fun h => h₁ (Or.inr h), h₂⟩
    have hl := (goes_separate ctx p b .valueExpected).length_le hp
    have hr := (goes_separate ctx p b .valueExpected).ready hp
    have hv := ih .value _ hr trivial (by simp only [Task.bound]; omega)
    simp only [run] at hv
    split
    · next n q hq =>
      rw [hq] at hv
      have hv' : Reads ctx .value (p.separate ctx b .valueExpected) [n] q := hv
      have hlt := hv'.value_shrinks hr
      exact .item hc hv' (ih (.items true) q ((hv'.goes hr).ready hr) trivial
        (by simp only [Task.bound]; omega))
    · next q hq =>
      rw [hq] at hv
      obtain ⟨rfl, hn⟩ := hv.value_nil
      have hlt := recover_separate_shrinks hp b hc .valueExpected
      exact .noItem hc hn (ih (.items true) _ ((goes_recover ctx _ _ _).ready hr) trivial
        (by simp only [Task.bound]; omega))

theorem Follows.members {fuel : Nat} (ih : Follows ctx fuel) (hp : Ready p) {seen : List Text}
    {b : Bool} (hb : (Task.members seen b).bound p ≤ fuel + 1) :
    Reads ctx (.members seen b) p (run ctx (fuel + 1) (.members seen b) p).1
      (run ctx (fuel + 1) (.members seen b) p).2 := by
  simp only [Task.bound] at hb
  simp only [run]
  rw [members_succ]
  split_ifs with h₁ h₂ h₃
  · exact .membersEnd h₁
  · exact .membersTrailing h₂.1 h₂.2
  · obtain ⟨hk, rfl, hk'⟩ := h₃
    have hlt := recover_shrinks ctx hp .braceExpected [.closeBrace, .comma]
      (fun h => h₁ (Or.inr h)) (by simpa [hk] using fun h => h₁ (Or.inl h))
    exact .leftover (fun h => h₁ (Or.inl h)) (fun h => h₁ (Or.inr h)) hk hk'
      (ih (.members seen true) _ ((goes_recover ctx p _ _).ready hp) trivial
        (by simp only [Task.bound]; omega))
  · have hc : p.Continues ctx b .propertyExpected .closeBrace :=
      ⟨fun h => h₁ (Or.inl h), fun h => h₁ (Or.inr h), h₂⟩
    have hor : p.kind = .comma ∨ b = false ∨ p.kind = .string := by
      by_contra hn
      simp only [not_or, Bool.not_eq_false] at hn
      exact h₃ hn
    have hl := (goes_separate ctx p b .propertyExpected).length_le hp
    have hr := (goes_separate ctx p b .propertyExpected).ready hp
    split
    · next key p' hkey =>
      have hr' := (goes_key? hkey).ready hr
      have hk' : p'.kind ≠ .eof := by
        rcases key?_spec hkey with ⟨h, -, rfl⟩ | ⟨h, -, rfl⟩ <;> simp [h]
      have hl' := (goes_key? hkey).length_le hr
      have hv := ih (.property key (seen.contains key)) p' hr' hk'
        (by simp only [Task.bound]; omega)
      have hlt := hv.property_shrinks hr'
      have hq := (hv.goes hr').ready hr'
      simp only [run] at hv hlt hq
      exact .member hc hor hkey hv (ih (.members (key :: seen) true) _ hq trivial
        (by simp only [Task.bound]; omega))
    · next hkey =>
      have hlt := recover_separate_shrinks hp b hc .propertyExpected
      exact .noMember hc hor hkey
        (ih (.members seen true) _ ((goes_recover ctx _ _ _).ready hr) trivial
        (by simp only [Task.bound]; omega))

theorem Follows.property {fuel : Nat} (ih : Follows ctx fuel) (hp : Ready p) (hk : p.kind ≠ .eof)
    {key : Text} {rep : Bool} (hb : (Task.property key rep).bound p ≤ fuel + 1) :
    Reads ctx (.property key rep) p (run ctx (fuel + 1) (.property key rep) p).1
      (run ctx (fuel + 1) (.property key rep) p).2 := by
  simp only [Task.bound] at hb
  simp only [run]
  rw [property_succ]
  split_ifs with h₁
  · exact .nextLine hk h₁
  · have hr := (goes_passKey ctx p hk rep).ready hp
    have hlt := passKey_shrinks ctx hp hk rep
    have hl := (goes_passColon ctx (p.passKey ctx rep)).length_le hr
    have hv := ih .value _ ((goes_passColon ctx _).ready hr) trivial
      (by simp only [Task.bound]; omega)
    simp only [run] at hv
    split
    · next v q hq =>
      rw [hq] at hv
      exact .valued hk h₁ hv
    · next q hq =>
      rw [hq] at hv
      obtain ⟨rfl, hn⟩ := hv.value_nil
      exact .valueless hk h₁ hn

/-- **With a large enough bound, the functions follow the rules.** -/
theorem follows (fuel : Nat) : Follows ctx fuel := by
  induction fuel with
  | zero =>
    intro task p hp hst hb
    cases task with
    | property key rep =>
      have := advance_shrinks ctx hp hst
      simp only [Task.bound] at hb
      omega
    | _ => simp [Task.bound] at hb
  | succ fuel ih =>
    intro task p hp hst hb
    cases task with
    | value => exact ih.value hp hb
    | items b => exact ih.items hp hb
    | members seen b => exact ih.members hp hb
    | property key rep => exact ih.property hp hst hb

/-! ## The rules determine the result -/

theorem atom?_startsValue_false (h : startsValue p.kind = false) : p.atom? ctx = none := by
  cases ha : p.atom? ctx with
  | none => rfl
  | some x => rw [(atom?_spec (a := x.1) (q := x.2) ha).1] at h; cases h

theorem value_of_startsValue_false (h : startsValue p.kind = false) (fuel : Nat) :
    value ctx (fuel + 1) p = (none, p) := by
  rw [value_succ, if_neg (by intro hk; rw [hk] at h; cases h),
    if_neg (by intro hk; rw [hk] at h; cases h), atom?_startsValue_false h]

theorem run_value_eq {fuel : Nat} {n : Node} {q : Cursor} (h : run ctx fuel .value p = ([n], q)) :
    value ctx fuel p = (some n, q) := by
  simp only [run, Prod.mk.injEq, Option.toList_eq_singleton_iff] at h
  exact Prod.ext h.1 h.2

theorem not_leftover {b : Bool} (h : p.kind = .comma ∨ b = false ∨ p.kind = .string) :
    ¬ (p.kind ≠ .comma ∧ b = true ∧ p.kind ≠ .string) := by
  rintro ⟨hk, hb, hk'⟩
  rcases h with h | h | h
  · exact hk h
  · rw [h] at hb; cases hb
  · exact hk' h

/-- A reading is what the functions give with every large enough bound. -/
theorem Reads.run_eq {task : Task} {out : List Node} {q : Cursor} (h : Reads ctx task p out q) :
    ∃ N, ∀ fuel, N ≤ fuel → run ctx fuel task p = (out, q) := by
  have lift : ∀ {task : Task} {p : Cursor} {r : List Node × Cursor} (N : Nat),
      (∀ fuel, N ≤ fuel → run ctx (fuel + 1) task p = r) →
      ∃ N, ∀ fuel, N ≤ fuel → run ctx fuel task p = r := by
    intro task p r N h
    refine ⟨N + 1, fun fuel hf => ?_⟩
    obtain ⟨k, rfl⟩ := Nat.exists_eq_add_of_le' hf
    exact h (k + N) (by omega)
  induction h with
  | object hk _ ih =>
    obtain ⟨N, h⟩ := ih
    refine lift N fun fuel hf => ?_
    have h := h fuel hf
    simp only [run] at h ⊢
    rw [value_succ, if_pos hk, h]
    rfl
  | array hk _ ih =>
    obtain ⟨N, h⟩ := ih
    refine lift N fun fuel hf => ?_
    have h := h fuel hf
    simp only [run] at h ⊢
    rw [value_succ, if_neg (by rw [hk]; simp), if_pos hk, h]
    rfl
  | @atom p a q h =>
    refine lift 0 fun fuel _ => ?_
    simp only [run]
    rw [value_succ, if_neg ?_, if_neg ?_, h]
    · rfl
    · intro hk; simp [atom?, hk] at h
    · intro hk; simp [atom?, hk] at h
  | noValue h =>
    refine lift 0 fun fuel _ => ?_
    simp only [run]
    rw [value_of_startsValue_false h]
    rfl
  | itemsEnd h =>
    refine lift 0 fun fuel _ => ?_
    simp only [run]
    rw [items_succ, if_pos h]
  | itemsTrailing hk hc =>
    refine lift 0 fun fuel _ => ?_
    simp only [run]
    rw [items_succ, if_neg (by rw [hk]; simp), if_pos ⟨hk, hc⟩]
  | item hc _ _ ih₁ ih₂ =>
    obtain ⟨N₁, h₁⟩ := ih₁
    obtain ⟨N₂, h₂⟩ := ih₂
    refine lift (max N₁ N₂) fun fuel hf => ?_
    have h₂ := h₂ fuel (by omega)
    simp only [run] at h₂ ⊢
    rw [items_succ, if_neg (by simp [hc.1, hc.2.1]), if_neg hc.2.2,
      run_value_eq (h₁ fuel (by omega))]
    simp only [h₂]
  | noItem hc hn _ ih =>
    obtain ⟨N, h⟩ := ih
    refine lift (N + 1) fun fuel hf => ?_
    have h := h fuel (by omega)
    obtain ⟨k, rfl⟩ := Nat.exists_eq_add_of_le' (show 1 ≤ fuel by omega)
    simp only [run] at h ⊢
    rw [items_succ, if_neg (by simp [hc.1, hc.2.1]), if_neg hc.2.2, value_of_startsValue_false hn]
    exact h
  | membersEnd h =>
    refine lift 0 fun fuel _ => ?_
    simp only [run]
    rw [members_succ, if_pos h]
  | membersTrailing hk hc =>
    refine lift 0 fun fuel _ => ?_
    simp only [run]
    rw [members_succ, if_neg (by rw [hk]; simp), if_pos ⟨hk, hc⟩]
  | leftover h₁ h₂ h₃ h₄ _ ih =>
    obtain ⟨N, h⟩ := ih
    refine lift N fun fuel hf => ?_
    have h := h fuel hf
    simp only [run] at h ⊢
    rw [members_succ, if_neg (by simp [h₁, h₂]), if_neg (by simp [h₃]), if_pos ⟨h₃, rfl, h₄⟩, h]
  | member hc hor hkey _ _ ih₁ ih₂ =>
    obtain ⟨N₁, h₁⟩ := ih₁
    obtain ⟨N₂, h₂⟩ := ih₂
    refine lift (max N₁ N₂) fun fuel hf => ?_
    have h₁ := h₁ fuel (by omega)
    have h₂ := h₂ fuel (by omega)
    simp only [run, Prod.mk.injEq, List.cons.injEq, and_true] at h₁ h₂ ⊢
    rw [members_succ, if_neg (by simp [hc.1, hc.2.1]), if_neg hc.2.2, if_neg (not_leftover hor), hkey]
    simp only [h₁.1, h₁.2, h₂]
  | noMember hc hor hkey _ ih =>
    obtain ⟨N, h⟩ := ih
    refine lift N fun fuel hf => ?_
    have h := h fuel hf
    simp only [run] at h ⊢
    rw [members_succ, if_neg (by simp [hc.1, hc.2.1]), if_neg hc.2.2, if_neg (not_leftover hor), hkey]
    exact h
  | nextLine hk h =>
    refine lift 0 fun fuel _ => ?_
    simp only [run]
    rw [property_succ, if_pos h]
  | valued hk hn _ ih =>
    obtain ⟨N, h⟩ := ih
    refine lift N fun fuel hf => ?_
    simp only [run]
    rw [property_succ, if_neg hn, run_value_eq (h fuel hf)]
  | valueless hk hn hv =>
    refine lift 1 fun fuel hf => ?_
    obtain ⟨k, rfl⟩ := Nat.exists_eq_add_of_le' hf
    simp only [run]
    rw [property_succ, if_neg hn, value_of_startsValue_false hv]

/-- **The rules determine the result.** -/
theorem Reads.unique {task : Task} {out out' : List Node} {q q' : Cursor}
    (h : Reads ctx task p out q) (h' : Reads ctx task p out' q') : out = out' ∧ q = q' := by
  obtain ⟨N, hN⟩ := h.run_eq
  obtain ⟨N', hN'⟩ := h'.run_eq
  have := (hN (max N N') (by omega)).symm.trans (hN' (max N N') (by omega))
  exact Prod.mk.inj this

end

end AnnotatedJson.Cursor

namespace AnnotatedJson.Literal

open Cursor

/-! ## Whole texts -/

/-- What the parse of a text depends on. -/
def context (cs : Text) (allowComments : Bool) : ParseContext := ⟨allowComments, endMark cs⟩

/-- The cursor at the first token of a text that is no comment. -/
def opening (ctx : ParseContext) (tokens : List Token) : Cursor := draw ctx default false tokens

/-- The cursor after the value of a text was read: no value and something after the
    value are problems. -/
def closing (ctx : ParseContext) (out : List Node) (q : Cursor) : Cursor :=
  if out.isEmpty then q.blame ctx .noRoot
  else if q.kind ≠ .eof then q.blame ctx .endExpected
  else q

/-- What a reading of the value of a text is worth. -/
def ofReading (ctx : ParseContext) (out : List Node) (q : Cursor) : Literal :=
  ⟨out.head?, (closing ctx out q).nextId, (closing ctx out q).errors, (closing ctx out q).comments⟩

variable {ctx : ParseContext} {tokens : List Token}

variable (ctx) in
theorem opening_stream (h : Token.Ended tokens) :
    ∃ ds, tokens = ds ++ (opening ctx tokens).stream ∧ (∀ d ∈ ds, d.kind.isComment = true) ∧
      Ready (opening ctx tokens) :=
  draw_stream ctx default false h

theorem ofReading_toList (ctx : ParseContext) (root : Option Node) (q : Cursor) :
    ofReading ctx root.toList q =
      (let p := if root.isNone then q.blame ctx .noRoot
        else if q.kind ≠ .eof then q.blame ctx .endExpected
        else q
      ⟨root, p.nextId, p.errors, p.comments⟩) := by
  cases root <;> rfl

theorem ofTokens_run (ctx : ParseContext) (tokens : List Token) : ofTokens ctx tokens =
    ofReading ctx (run ctx (3 * tokens.length + 3) .value (opening ctx tokens)).1
      (run ctx (3 * tokens.length + 3) .value (opening ctx tokens)).2 :=
  (ofReading_toList ctx _ _).symm

theorem ofTokens_eq (h : Token.Ended tokens) :
    ∃ out q, Reads ctx .value (opening ctx tokens) out q ∧
      ofTokens ctx tokens = ofReading ctx out q := by
  obtain ⟨ds, hd, -, hr⟩ := opening_stream ctx h
  have hl : (opening ctx tokens).rest.length < tokens.length := by
    have := congrArg List.length hd
    simp only [List.length_append, stream, List.length_cons] at this
    omega
  refine ⟨_, _, follows (3 * tokens.length + 3) .value (opening ctx tokens) hr trivial
    (by simp only [Task.bound]; omega), ofTokens_run ctx tokens⟩

/-- **The parse of a text is the reading of a value at its first token.** -/
theorem parse_eq (cs : Text) (allow : Bool) :
    ∃ out q, Reads (context cs allow) .value (opening (context cs allow) (Token.scan cs)) out q ∧
      parse cs allow = ofReading (context cs allow) out q :=
  ofTokens_eq (Token.scans_scan cs).ended

theorem parse_of_reads {cs : Text} {allow : Bool} {out : List Node} {q : Cursor}
    (h : Reads (context cs allow) .value (opening (context cs allow) (Token.scan cs)) out q) :
    parse cs allow = ofReading (context cs allow) out q := by
  obtain ⟨out', q', h', he⟩ := parse_eq cs allow
  obtain ⟨rfl, rfl⟩ := h.unique h'
  exact he

end AnnotatedJson.Literal
