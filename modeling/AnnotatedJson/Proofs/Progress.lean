/-
  The parser always progresses.

  The loops over items, over members and over tokens that are skipped are cut into rounds, and the
  calls that a parse makes are listed.

  * `Cursor.Loop.round` is one round of a loop, `Loop.run_succ`: a loop is its rounds;
  * `Loop.round_passes`: a round that is completed leaves at least one token behind;
  * `Cursor.Asked`: the scanner was asked for the tokens up to the current one, and for none after the
    end of input; `Moves.asked`: moves keep this;
  * `Cursor.Made` are the calls of a parse, `Made.supplied`: each is made at a token of the text, with a
    bound that is not used up;
  * `Literal.parse_progresses` puts these together.
-/
import Mathlib
import AnnotatedJson.Proofs.Tiling
import AnnotatedJson.Proofs.Tree

namespace AnnotatedJson

namespace Cursor

variable (ctx : ParseContext)

/-! ## Loops and their rounds -/

/-- A loop of the parser with what it carries from round to round. -/
inductive Loop where
  | items (needsComma : Bool)
  | members (seen : List Text) (needsComma : Bool)
  | skip (stops : List TokenKind)

/-- Runs a loop from a cursor on. -/
def Loop.run (fuel : Nat) : Loop → Cursor → List Node × Cursor
  | .items b, p => Cursor.items ctx fuel b p
  | .members seen b, p => Cursor.members ctx fuel seen b p
  | .skip stops, p => ([], p.skipLoop ctx stops fuel)

/-- One round of a loop: nothing where the loop ends, and else the nodes that were read, with the loop
    and the cursor for the next round.  A trailing comma is a round without nodes. -/
def Loop.round (fuel : Nat) : Loop → Cursor → Option (List Node × Loop × Cursor)
  | .items b, p =>
    if p.kind = .closeBracket ∨ p.kind = .eof then none
    else if p.kind = .comma ∧ (p.separate ctx b .valueExpected).kind = .closeBracket then
      some ([], .items b, (p.separate ctx b .valueExpected).noteTrailing b p.start)
    else match value ctx fuel (p.separate ctx b .valueExpected) with
      | (some n, q) => some ([n], .items true, q)
      | (none, q) => some ([], .items true, q.recover ctx .valueExpected [.closeBracket, .comma])
  | .members seen b, p =>
    if p.kind = .closeBrace ∨ p.kind = .eof then none
    else if p.kind = .comma ∧ (p.separate ctx b .propertyExpected).kind = .closeBrace then
      some ([], .members seen b, (p.separate ctx b .propertyExpected).noteTrailing b p.start)
    else if p.kind ≠ .comma ∧ b = true ∧ p.kind ≠ .string then
      some ([], .members seen b, p.recover ctx .braceExpected [.closeBrace, .comma])
    else match (p.separate ctx b .propertyExpected).key? ctx with
      | some (key, q) => some ([(property ctx fuel key (seen.contains key) q).1],
          .members (key :: seen) true, (property ctx fuel key (seen.contains key) q).2)
      | none => some ([], .members seen true, (p.separate ctx b .propertyExpected).recover ctx
          .propertyExpected [.closeBrace, .comma])
  | .skip stops, p =>
    if p.kind = .eof ∨ p.kind ∈ stops then none else some ([], .skip stops, p.advance ctx)

theorem items_of_closed (fuel : Nat) (b : Bool) {p : Cursor} (h : p.kind = .closeBracket) :
    items ctx fuel b p = ([], p) := by
  cases fuel with
  | zero => rw [items]
  | succ fuel => rw [items_succ, if_pos (Or.inl h)]

theorem members_of_closed (fuel : Nat) (seen : List Text) (b : Bool) {p : Cursor}
    (h : p.kind = .closeBrace) : members ctx fuel seen b p = ([], p) := by
  cases fuel with
  | zero => rw [members]
  | succ fuel => rw [members_succ, if_pos (Or.inl h)]

@[simp] theorem noteTrailing_kind (p : Cursor) (b : Bool) (comma : Nat) :
    (p.noteTrailing b comma).kind = p.kind := by
  unfold noteTrailing; split <;> simp

/-- **A loop is its rounds.** -/
theorem Loop.run_succ (fuel : Nat) (l : Loop) (p : Cursor) : l.run ctx (fuel + 1) p =
    (l.round ctx fuel p).elim ([], p) fun r =>
      (r.1 ++ (r.2.1.run ctx fuel r.2.2).1, (r.2.1.run ctx fuel r.2.2).2) := by
  cases l with
  | items b =>
    simp only [run, round, items_succ]
    split_ifs with h₁ h₂
    · rfl
    · simp [items_of_closed, h₂.2]
    · split <;> simp [*]
  | members seen b =>
    simp only [run, round, members_succ]
    split_ifs with h₁ h₂ h₃
    · rfl
    · simp [members_of_closed, h₂.2]
    · simp
    · split <;> simp [*]
  | skip stops =>
    simp only [run, round, skipLoop]
    split_ifs <;> rfl

/-! ## A round takes a token -/

/-- The bound that a loop needs at a cursor. -/
def Loop.bound : Loop → Cursor → Nat
  | .items _, p => 3 * p.rest.length + 2
  | .members _ _, p => 3 * p.rest.length + 2
  | .skip _, p => p.rest.length + 1

@[simp] theorem noteTrailing_rest (p : Cursor) (b : Bool) (comma : Nat) :
    (p.noteTrailing b comma).rest = p.rest := by
  unfold noteTrailing; split <;> simp

section
variable {ctx} {all : List Token} {p q r : Cursor}

variable (ctx all) in
/-- The cursor goes from `p` to `q` and leaves at least one token behind. -/
structure Passes (p q : Cursor) : Prop where
  moves : Moves ctx all p q
  shrinks : q.rest.length < p.rest.length

theorem Moves.passes (h : Moves ctx all p q) (hp : Ready p) (h' : Passes ctx all q r) :
    Passes ctx all p r :=
  ⟨h.trans h'.moves, lt_of_lt_of_le h'.shrinks (h.length_le hp)⟩

theorem moves_trailing (ha : p.stream ⊆ all) (hk : p.kind = .comma) (b : Bool) (problem : Problem) :
    Moves ctx all p ((p.separate ctx b problem).noteTrailing b p.start) :=
  (moves_separate ha b problem).trans (moves_noteTrailing (ha List.mem_cons_self) hk b)

/-- A value that is read within its bound takes at least one token. -/
theorem value_passes {fuel : Nat} {n : Node} (hp : Ready p) (ha : p.stream ⊆ all)
    (hb : 3 * p.rest.length + 1 ≤ fuel) (h : value ctx fuel p = (some n, q)) : Passes ctx all p q := by
  have hreads : Reads ctx .value p _ _ := follows fuel .value p hp trivial hb
  simp only [run, h, Option.toList_some] at hreads
  exact ⟨hreads.moves hp ha, hreads.value_shrinks hp⟩

/-- Where no value is read within its bound, nothing moves. -/
theorem value_stays {fuel : Nat} (hp : Ready p) (hb : 3 * p.rest.length + 1 ≤ fuel)
    (h : value ctx fuel p = (none, q)) : q = p := by
  have hreads : Reads ctx .value p _ _ := follows fuel .value p hp trivial hb
  simp only [run, h, Option.toList_none] at hreads
  exact hreads.value_nil.1

/-- A property that is read within its bound takes at least one token. -/
theorem property_passes (fuel : Nat) (key : Text) (rep : Bool) (hp : Ready p) (ha : p.stream ⊆ all)
    (hk : p.kind ≠ .eof) (hb : 3 * p.rest.length ≤ fuel) :
    Passes ctx all p (property ctx fuel key rep p).2 := by
  have hreads : Reads ctx (.property key rep) p _ _ := follows fuel (.property key rep) p hp hk hb
  exact ⟨hreads.moves hp ha, hreads.property_shrinks hp⟩

theorem key?_ne_eof {key : Text} (h : p.key? ctx = some (key, q)) : q.kind ≠ .eof := by
  rcases key?_spec h with ⟨hk, -, rfl⟩ | ⟨hk, -, rfl⟩ <;> simp [hk]

variable (ctx) in
/-- The value of a property is looked for past its key. -/
theorem passes_key (hp : Ready p) (ha : p.stream ⊆ all) (hk : p.kind ≠ .eof) (rep : Bool) :
    Passes ctx all p ((p.passKey ctx rep).passColon ctx) := by
  have hm : Moves ctx all p (p.passKey ctx rep) := moves_passKey ha hk rep
  have hm' : Moves ctx all _ ((p.passKey ctx rep).passColon ctx) := moves_passColon (hm.subset hp ha)
  exact ⟨hm.trans hm', lt_of_le_of_lt (hm'.length_le (hm.ready hp)) (passKey_shrinks ctx hp hk rep)⟩

theorem items_round_passes {fuel : Nat} {b : Bool} {l : Loop} {ns : List Node} (hp : Ready p)
    (ha : p.stream ⊆ all) (hb : (Loop.items b).bound p ≤ fuel + 1)
    (h : (Loop.items b).round ctx fuel p = some (ns, l, q)) :
    Passes ctx all p q ∧ ∃ b', l = .items b' := by
  have hm : Moves ctx all p (p.separate ctx b .valueExpected) := moves_separate ha b _
  have hr := hm.ready hp
  have hl := hm.length_le hp
  simp only [Loop.bound] at hb
  rw [Loop.round] at h
  split_ifs at h with h₁ h₂
  · cases h
    have hlt := separate_shrinks ctx hp h₂.1 b .valueExpected
    exact ⟨⟨moves_trailing ha h₂.1 b _, by simpa using hlt⟩, b, rfl⟩
  · split at h
    · next n q' hv =>
      cases h
      exact ⟨hm.passes hp (value_passes hr (hm.subset hp ha) (by omega) hv), true, rfl⟩
    · next q' hv =>
      cases h
      -- Nothing was read: the comma that was passed or the token that is skipped makes the progress.
      obtain rfl := value_stays hr (by omega) hv
      have hc : p.Continues ctx b .valueExpected .closeBracket :=
        ⟨fun h => h₁ (Or.inl h), fun h => h₁ (Or.inr h), h₂⟩
      exact ⟨⟨hm.trans (moves_recover (hm.subset hp ha) _ _),
        recover_separate_shrinks hp b hc .valueExpected⟩, true, rfl⟩

theorem members_round_passes {fuel : Nat} {seen : List Text} {b : Bool} {l : Loop} {ns : List Node}
    (hp : Ready p) (ha : p.stream ⊆ all) (hb : (Loop.members seen b).bound p ≤ fuel + 1)
    (h : (Loop.members seen b).round ctx fuel p = some (ns, l, q)) :
    Passes ctx all p q ∧ ∃ seen' b', l = .members seen' b' := by
  have hm : Moves ctx all p (p.separate ctx b .propertyExpected) := moves_separate ha b _
  simp only [Loop.bound] at hb
  rw [Loop.round] at h
  split_ifs at h with h₁ h₂ h₃
  · cases h
    have hlt := separate_shrinks ctx hp h₂.1 b .propertyExpected
    exact ⟨⟨moves_trailing ha h₂.1 b _, by simpa using hlt⟩, seen, b, rfl⟩
  · -- The leftover is no stop of its own recovery, which therefore skips it.
    cases h
    have hlt := recover_shrinks ctx hp .braceExpected [.closeBrace, .comma]
      (fun h => h₁ (Or.inr h)) (by simpa [h₃.1] using fun h => h₁ (Or.inl h))
    exact ⟨⟨moves_recover ha _ _, hlt⟩, seen, b, rfl⟩
  · split at h
    · next key q' hkey =>
      cases h
      have hm' : Moves ctx all p q' := hm.trans (moves_key? (hm.subset hp ha) hkey)
      have hl' := hm'.length_le hp
      have hpass : Passes ctx all q' _ := property_passes fuel key (seen.contains key) (hm'.ready hp)
        (hm'.subset hp ha) (key?_ne_eof hkey) (by omega)
      exact ⟨hm'.passes hp hpass, key :: seen, true, rfl⟩
    · cases h
      have hc : p.Continues ctx b .propertyExpected .closeBrace :=
        ⟨fun h => h₁ (Or.inl h), fun h => h₁ (Or.inr h), h₂⟩
      exact ⟨⟨hm.trans (moves_recover (hm.subset hp ha) _ _),
        recover_separate_shrinks hp b hc .propertyExpected⟩, seen, true, rfl⟩

theorem skip_round_passes {fuel : Nat} {stops : List TokenKind} {l : Loop} {ns : List Node}
    (hp : Ready p) (h : (Loop.skip stops).round ctx fuel p = some (ns, l, q)) :
    Passes ctx all p q ∧ l = .skip stops := by
  rw [Loop.round] at h
  split_ifs at h with h₁
  cases h
  have hk : p.kind ≠ .eof := fun h => h₁ (Or.inl h)
  exact ⟨⟨moves_advance hk, advance_shrinks ctx hp hk⟩, rfl⟩

/-- **A round that is completed takes at least one token**, so that the next one needs a smaller
    bound. -/
theorem Loop.round_passes {fuel : Nat} {l l' : Loop} {ns : List Node} (hp : Ready p)
    (ha : p.stream ⊆ all) (hb : l.bound p ≤ fuel + 1) (h : l.round ctx fuel p = some (ns, l', q)) :
    Passes ctx all p q ∧ l'.bound q ≤ fuel := by
  cases l with
  | items b =>
    obtain ⟨hpass, b', rfl⟩ := items_round_passes hp ha hb h
    have := hpass.shrinks
    simp only [bound] at hb ⊢
    exact ⟨hpass, by omega⟩
  | members seen b =>
    obtain ⟨hpass, seen', b', rfl⟩ := members_round_passes hp ha hb h
    have := hpass.shrinks
    simp only [bound] at hb ⊢
    exact ⟨hpass, by omega⟩
  | skip stops =>
    obtain ⟨hpass, rfl⟩ := skip_round_passes hp h
    have := hpass.shrinks
    simp only [bound] at hb ⊢
    exact ⟨hpass, by omega⟩

/-- Where a token is left behind, the current token starts later. -/
theorem Passes.start_lt {cs : Text} (h : Passes ctx all p q) (hp : On cs p) : p.start < q.start := by
  have hk : p.kind ≠ .eof := by
    intro hk
    have hnil := hp.ended.eq_nil hk
    have := h.shrinks
    rw [hnil] at this
    simp at this
  have hsuffix := (h.moves.suffix hp.toReady).1
  have hmem : q.current ∈ p.rest := by
    rcases List.suffix_cons_iff.1 hsuffix with he | hs
    · have := congrArg List.length he
      simp only [stream, List.length_cons] at this
      have := h.shrinks
      omega
    · exact hs.subset List.mem_cons_self
  exact lt_of_lt_of_le (hp.start_lt_stop hk) (hp.stop_le_of_mem hmem)

end

/-! ## The tokens that are drawn -/

/-- The scanner was asked for the tokens up to the current one; none of those before it is the end of
    input, so that it was never asked for a token after that. -/
def Asked (tokens : List Token) (p : Cursor) : Prop :=
  ∃ before, tokens = before ++ p.stream ∧ p.drawn = before.length + 1 ∧ ∀ t ∈ before, t.kind ≠ .eof

section
variable (p : Cursor) (problem : Problem)

@[simp] theorem report_drawn (span : Span) : (p.report problem span).drawn = p.drawn := by
  unfold report; split <;> rfl

@[simp] theorem noteFault_drawn (t : Token) : (p.noteFault t).drawn = p.drawn := by
  unfold noteFault; split <;> simp

@[simp] theorem noteComment_drawn (t : Token) : (p.noteComment ctx t).drawn = p.drawn := by
  unfold noteComment; dsimp only; split <;> simp

end

section
variable {ctx} {all tokens : List Token} {p q : Cursor}

/-- Drawing asks for the comments and the token after them. -/
theorem draw_asked {ts before : List Token} (h : Token.Ended ts) (hd : p.drawn = before.length)
    (hb : ∀ t ∈ before, t.kind ≠ .eof) (broken : Bool) :
    Asked (before ++ ts) (p.draw ctx broken ts) := by
  induction h generalizing p before broken with
  | @last t ht =>
    have hn : t.kind.isComment = false := by rw [ht]; rfl
    exact ⟨before, by simp [draw, hn, stream], by simp [draw, hn, hd], hb⟩
  | @cons t ts ht hts ih =>
    by_cases hc : t.kind.isComment = true
    · rw [draw, if_pos hc, List.append_cons]
      exact ih (by simp [hd]) (List.forall_mem_append.2 ⟨hb, List.forall_mem_singleton.2 ht⟩) _
    · have hn : t.kind.isComment = false := by simpa using hc
      exact ⟨before, by simp [draw, hn, stream], by simp [draw, hn, hd], hb⟩

theorem Move.asked (h : Move ctx all p q) (hp : Ready p) (ha : Asked tokens p) : Asked tokens q := by
  obtain ⟨before, rfl, hd, hb⟩ := ha
  cases h with
  | report _ => exact ⟨before, by simp, by simpa using hd, hb⟩
  | fresh => exact ⟨before, rfl, hd, hb⟩
  | advance hk =>
    -- The token that is left is not the end of input.
    have hb' : ∀ t ∈ before ++ [p.current], t.kind ≠ .eof :=
      List.forall_mem_append.2 ⟨hb, List.forall_mem_singleton.2 hk⟩
    rw [stream, List.append_cons]
    exact draw_asked (hp.rest_ended hk) (by simpa using hd) hb' false

theorem Moves.asked (h : Moves ctx all p q) (hp : Ready p) (ha : Asked tokens p) : Asked tokens q := by
  induction h with
  | refl => exact ha
  | tail hm h ih => exact h.asked (Moves.ready hm hp) ih

theorem Asked.subset (h : Asked tokens p) : p.stream ⊆ tokens := by
  obtain ⟨before, rfl, -, -⟩ := h
  exact List.subset_append_right _ _

theorem Asked.drawn_le (h : Asked tokens p) : p.drawn ≤ tokens.length := by
  obtain ⟨before, rfl, hd, -⟩ := h
  rw [hd, List.length_append, stream, List.length_cons]
  omega

end

/-! ## The calls of a parse -/

/-- A call of a value, of a property or of a loop. -/
inductive Call where
  | value (p : Cursor)
  | property (key : Text) (repeated : Bool) (p : Cursor)
  | loop (l : Loop) (p : Cursor)

/-- Where a call is made. -/
def Call.cursor : Call → Cursor
  | .value p => p
  | .property _ _ p => p
  | .loop _ p => p

/-- The bound that a call needs. -/
def Call.bound : Call → Nat
  | .value p => Task.value.bound p
  | .property key rep p => (Task.property key rep).bound p
  | .loop l p => l.bound p

/-- A property starts at a token. -/
def Call.Starts : Call → Prop
  | .property _ _ p => p.kind ≠ .eof
  | _ => True

/-- The call of the loop that recovering is, with its bound. -/
def recovering (p : Cursor) (problem : Problem) (stops : List TokenKind) : Nat × Call :=
  ((p.blame ctx problem).rest.length + 1, .loop (.skip stops) (p.blame ctx problem))

/-- What a call calls, each with the bound that it is given. -/
inductive Calls : Nat × Call → Nat × Call → Prop
  | object {n p} : p.kind = .openBrace →
      Calls (n + 1, .value p) (n, .loop (.members [] false) (p.fresh.2.advance ctx))
  | array {n p} : p.kind = .openBracket →
      Calls (n + 1, .value p) (n, .loop (.items false) (p.fresh.2.advance ctx))
  | round {n l p ns l' q} : l.round ctx n p = some (ns, l', q) →
      Calls (n + 1, .loop l p) (n, .loop l' q)
  | item {n b p} : p.Continues ctx b .valueExpected .closeBracket →
      Calls (n + 1, .loop (.items b) p) (n, .value (p.separate ctx b .valueExpected))
  | noItem {n b p q} : p.Continues ctx b .valueExpected .closeBracket →
      value ctx n (p.separate ctx b .valueExpected) = (none, q) →
      Calls (n + 1, .loop (.items b) p) (recovering ctx q .valueExpected [.closeBracket, .comma])
  | leftover {n seen p} : p.kind ≠ .closeBrace → p.kind ≠ .eof → p.kind ≠ .comma → p.kind ≠ .string →
      Calls (n + 1, .loop (.members seen true) p)
        (recovering ctx p .braceExpected [.closeBrace, .comma])
  | member {n seen b p key q} : p.Continues ctx b .propertyExpected .closeBrace →
      (p.kind = .comma ∨ b = false ∨ p.kind = .string) →
      (p.separate ctx b .propertyExpected).key? ctx = some (key, q) →
      Calls (n + 1, .loop (.members seen b) p) (n, .property key (seen.contains key) q)
  | noMember {n seen b p} : p.Continues ctx b .propertyExpected .closeBrace →
      (p.kind = .comma ∨ b = false ∨ p.kind = .string) →
      (p.separate ctx b .propertyExpected).key? ctx = none →
      Calls (n + 1, .loop (.members seen b) p)
        (recovering ctx (p.separate ctx b .propertyExpected) .propertyExpected [.closeBrace, .comma])
  | valued {n key rep p} : ¬ (p.passKey ctx rep).NextLine →
      Calls (n + 1, .property key rep p) (n, .value ((p.passKey ctx rep).passColon ctx))
  | valueless {n key rep p q} : ¬ (p.passKey ctx rep).NextLine →
      value ctx n ((p.passKey ctx rep).passColon ctx) = (none, q) → q.kind ≠ .unknown →
      Calls (n + 1, .property key rep p) (recovering ctx q .valueExpected [.closeBrace, .comma])

/-- The calls that a call leads to, itself among them. -/
def Made : Nat × Call → Nat × Call → Prop := Relation.ReflTransGen (Calls ctx)

/-- A call at a token of a text, with a bound that is large enough. -/
structure Supplied (cs : Text) (c : Nat × Call) : Prop where
  on : On cs c.2.cursor
  asked : Asked (Token.scan cs) c.2.cursor
  bound : c.2.bound ≤ c.1
  starts : c.2.Starts

section
variable {ctx} {cs : Text} {c c' : Nat × Call} {p q : Cursor}

/-- A supplied call has a bound that is not used up. -/
theorem Supplied.pos (h : Supplied cs c) : 0 < c.1 := by
  obtain ⟨n, c⟩ := c
  have hb := h.bound
  cases c with
  | value p =>
    simp only [Call.bound, Task.bound] at hb
    omega
  | property key rep p =>
    have := advance_shrinks ⟨true, default⟩ h.on.toReady h.starts
    simp only [Call.bound, Call.cursor, Task.bound] at hb this
    omega
  | loop l p =>
    cases l <;> simp only [Call.bound, Loop.bound] at hb <;> omega

/-- A call that a supplied one leads to by moves is supplied, if its bound is large enough. -/
theorem Supplied.moves (h : Supplied cs c) (hm : Moves ctx (Token.scan cs) c.2.cursor c'.2.cursor)
    (hb : c'.2.bound ≤ c'.1) (hs : c'.2.Starts) : Supplied cs c' :=
  ⟨hm.on h.on, hm.asked h.on.toReady h.asked, hb, hs⟩

theorem Supplied.recovering (h : Supplied cs c) (hm : Moves ctx (Token.scan cs) c.2.cursor q)
    (problem : Problem) (stops : List TokenKind) : Supplied cs (recovering ctx q problem stops) :=
  h.moves (hm.trans (moves_blame (hm.subset h.on.toReady h.asked.subset) problem)) le_rfl trivial

/-- **Supplied calls make supplied calls.** -/
theorem Calls.supplied (h : Calls ctx c c') (hc : Supplied cs c) : Supplied cs c' := by
  have hr : Ready c.2.cursor := hc.on.toReady
  have ha := hc.asked.subset
  have hb := hc.bound
  cases h with
  | @object n p hk | @array n p hk =>
    have hk' : p.kind ≠ .eof := by rw [hk]; simp
    have := open_shrinks ctx hr hk'
    refine hc.moves (moves_open hk') ?_ trivial
    simp only [Call.bound, Call.cursor, Task.bound, Loop.bound] at hb this ⊢
    omega
  | @round n l p ns l' q hround =>
    obtain ⟨hpass, hb'⟩ := Loop.round_passes hr ha hb hround
    exact hc.moves hpass.moves hb' trivial
  | @item n b p hcont =>
    have hm : Moves ctx (Token.scan cs) p (p.separate ctx b .valueExpected) := moves_separate ha b _
    have := hm.length_le hr
    refine hc.moves hm ?_ trivial
    simp only [Call.bound, Task.bound, Loop.bound] at hb ⊢
    omega
  | @noItem n b p q hcont hv =>
    have hm : Moves ctx (Token.scan cs) p (p.separate ctx b .valueExpected) := moves_separate ha b _
    have := hm.length_le hr
    simp only [Call.bound, Loop.bound] at hb
    obtain rfl := value_stays (hm.ready hr) (by omega) hv
    exact hc.recovering hm _ _
  | leftover _ _ _ _ => exact hc.recovering .refl _ _
  | @member n seen b p key q hcont hor hkey =>
    have hm : Moves ctx (Token.scan cs) p (p.separate ctx b .propertyExpected) := moves_separate ha b _
    have hm' := hm.trans (moves_key? (hm.subset hr ha) hkey)
    have := hm'.length_le hr
    refine hc.moves hm' ?_ (key?_ne_eof hkey)
    simp only [Call.bound, Task.bound, Loop.bound] at hb ⊢
    omega
  | noMember _ _ _ => exact hc.recovering (moves_separate ha _ _) _ _
  | @valued n key rep p hn =>
    have hm : Passes ctx (Token.scan cs) p ((p.passKey ctx rep).passColon ctx) :=
      passes_key ctx hr ha hc.starts rep
    refine hc.moves hm.moves ?_ trivial
    have := hm.shrinks
    simp only [Call.bound, Task.bound] at hb this ⊢
    omega
  | @valueless n key rep p q hn hv hk =>
    have hm : Passes ctx (Token.scan cs) p ((p.passKey ctx rep).passColon ctx) :=
      passes_key ctx hr ha hc.starts rep
    have := hm.shrinks
    simp only [Call.bound, Task.bound] at hb this
    obtain rfl := value_stays (hm.moves.ready hr) (by omega) hv
    exact hc.recovering hm.moves _ _

/-- **All the calls that a supplied one leads to are supplied.** -/
theorem Made.supplied (h : Made ctx c c') (hc : Supplied cs c) : Supplied cs c' := by
  induction h with
  | refl => exact hc
  | tail _ hcall ih => exact hcall.supplied ih

end

end Cursor

/-! ## Whole texts -/

/-- There are at most as many tokens as bytes, and the end of input. -/
theorem Token.Scans.length_le {seen cs : Text} {ts : List Token} (h : Scans seen cs ts) :
    ts.length ≤ Text.bytes cs + 1 := by
  induction h with
  | eof _ => simp
  | @token seen gap c cs ts _ _ _ ih =>
    have hpos := Text.bytes_pos (Lexeme.rule_read c cs).source_ne_nil
    have hread : Text.bytes (c :: cs) = _ := congrArg Text.bytes (Lexeme.rule_read c cs).append.symm
    rw [Text.bytes_append] at hread
    rw [Text.bytes_append, List.length_cons]
    omega

namespace Literal

open Cursor

variable (cs : Text) (allow : Bool)

/-- The call that the parse of a text is, with its bound. -/
def rootCall : Nat × Call :=
  (3 * (Token.scan cs).length + 3, .value (opening (context cs allow) (Token.scan cs)))

theorem opening_asked : (opening (context cs allow) (Token.scan cs)).Asked (Token.scan cs) := by
  have h : (opening (context cs allow) (Token.scan cs)).Asked ([] ++ Token.scan cs) :=
    draw_asked (Token.scans_scan cs).ended rfl (by simp) false
  exact h

theorem rootCall_supplied : Supplied cs (rootCall cs allow) := by
  have hasked := opening_asked cs allow
  refine ⟨opening_on cs allow, hasked, ?_, trivial⟩
  obtain ⟨before, htokens, -, -⟩ := hasked
  have := congrArg List.length htokens
  simp only [List.length_append, stream, List.length_cons] at this
  simp only [rootCall, Call.bound, Task.bound]
  omega

variable {cs allow} in
/-- A larger bound changes nothing. -/
theorem run_rootCall {n : Nat} (hn : (rootCall cs allow).1 ≤ n) :
    run (context cs allow) n .value (rootCall cs allow).2.cursor =
      run (context cs allow) (rootCall cs allow).1 .value (rootCall cs allow).2.cursor := by
  have hroot := rootCall_supplied cs allow
  have hready := hroot.on.toReady
  obtain ⟨hout, hq⟩ := (follows n .value _ hready trivial (hroot.bound.trans hn)).unique
    (follows _ .value _ hready trivial hroot.bound)
  exact Prod.ext hout hq

/-- Up to its end a parse asks for no token after the end of input. -/
theorem closing_asked {out : List Node} {q : Cursor}
    (h : Reads (context cs allow) .value (opening (context cs allow) (Token.scan cs)) out q) :
    (closing (context cs allow) out q).Asked (Token.scan cs) := by
  have hready := (opening_on cs allow).toReady
  have hm := h.moves hready (opening_subset cs allow)
  have hclose := hm.trans (moves_closing (hm.subset hready (opening_subset cs allow)) out)
  exact hclose.asked hready (opening_asked cs allow)

/-- **The parser always progresses.**  Every loop is its rounds; a round of the parse that is completed
    ends at a token that starts later; no call of the parse uses up its bound, and a larger one changes
    nothing; the scanner is never asked for a token after the end of input, hence for one more token
    than there are bytes at most. -/
theorem parse_progresses :
    (∀ n l p, Loop.run (context cs allow) (n + 1) l p =
      (l.round (context cs allow) n p).elim ([], p) fun r =>
        (r.1 ++ (r.2.1.run (context cs allow) n r.2.2).1, (r.2.1.run (context cs allow) n r.2.2).2)) ∧
    (∀ n l p ns l' q, Made (context cs allow) (rootCall cs allow) (n + 1, .loop l p) →
      l.round (context cs allow) n p = some (ns, l', q) → p.start < q.start) ∧
    (∀ n c, Made (context cs allow) (rootCall cs allow) (n, c) →
      0 < n ∧ c.cursor.Asked (Token.scan cs)) ∧
    ∃ out q, (∀ n, (rootCall cs allow).1 ≤ n →
        run (context cs allow) n .value (rootCall cs allow).2.cursor = (out, q)) ∧
      parse cs allow = ofReading (context cs allow) out q ∧
      (closing (context cs allow) out q).Asked (Token.scan cs) ∧
      (closing (context cs allow) out q).drawn ≤ Text.bytes cs + 1 := by
  have hroot := rootCall_supplied cs allow
  refine ⟨Loop.run_succ _, ?_, ?_, ?_⟩
  · intro n l p ns l' q hmade hround
    have hsupplied := hmade.supplied hroot
    have hpass := Loop.round_passes hsupplied.on.toReady hsupplied.asked.subset hsupplied.bound hround
    exact hpass.1.start_lt hsupplied.on
  · intro n c hmade
    have hsupplied := hmade.supplied hroot
    exact ⟨hsupplied.pos, hsupplied.asked⟩
  · have hasked := closing_asked cs allow (follows _ .value _ hroot.on.toReady trivial hroot.bound)
    exact ⟨_, _, fun n hn => run_rootCall hn, ofTokens_run _ _, hasked,
      hasked.drawn_le.trans (Token.scans_scan cs).length_le⟩

-- Where every byte is a token, one more token is asked for than there are bytes.
example : (run (context ['[', '}', ',', ']'] false) (rootCall ['[', '}', ',', ']'] false).1 .value
    (rootCall ['[', '}', ',', ']'] false).2.cursor).2.drawn = 5 := by decide

end Literal

end AnnotatedJson
