/-
  Repairing literals with shorthand.

  * `Literal.fillNode_eq_self`: a node that no correction reaches into stays as it is;
  * `Shorthand.Corrects`: the corrections of a literal, one for each shorthand value of the
    outermost object;
  * `Shorthand.fillNode_parsed`: a correction gives its own member the value, and no other;
  * `Literal.repair_shorthand`: the repaired literal stands for the object that its text
    denotes, with the schema in front and no errors.
-/
import Mathlib
import AnnotatedJson.Mode.Literal
import AnnotatedJson.Proofs.Shorthand

namespace AnnotatedJson

namespace Literal

/-! ## Corrections and nodes -/

/-- Whether a correction reaches over an extent. -/
def Covers (c : Correction) (m : Mark) : Prop := c.span.start ≤ m.offset ∧ m.stop ≤ c.span.stop

section
variable {corrections : List Correction} {m : Mark}

theorem correctionFor?_eq_none (h : ∀ c ∈ corrections, ¬ Covers c m) :
    correctionFor? corrections m = none := by
  rw [correctionFor?, List.find?_eq_none]
  intro c hc
  simpa [Covers] using h c (List.mem_reverse.1 hc)

theorem exists_correctionFor? {c : Correction} (hc : c ∈ corrections) (h : Covers c m) :
    ∃ c' ∈ corrections, correctionFor? corrections m = some c' ∧ Covers c' m := by
  have hsome : (correctionFor? corrections m).isSome = true :=
    List.find?_isSome.2 ⟨c, List.mem_reverse.2 hc, by simpa [Covers] using h⟩
  obtain ⟨c', hc'⟩ := Option.isSome_iff_exists.1 hsome
  refine ⟨c', List.mem_reverse.1 (List.mem_of_find?_eq_some hc'), hc', ?_⟩
  simpa [Covers] using List.find?_some hc'

theorem fillNodes_eq_self {ns : List Node}
    (h : ∀ n ∈ ns, ∀ next, fillNode corrections next n = (n, next)) (next : Nat) :
    fillNodes corrections next ns = (ns, next) := by
  induction ns with
  | nil => rw [fillNodes]
  | cons n ns ih =>
    rw [fillNodes, h n (List.mem_cons_self ..)]
    dsimp only
    rw [ih fun x hx => h x (List.mem_cons_of_mem _ hx)]

theorem fillNodes_append (next : Nat) (ns ns' : List Node) :
    fillNodes corrections next (ns ++ ns') =
      ((fillNodes corrections next ns).1 ++
        (fillNodes corrections (fillNodes corrections next ns).2 ns').1,
      (fillNodes corrections (fillNodes corrections next ns).2 ns').2) := by
  induction ns generalizing next with
  | nil => simp [fillNodes]
  | cons n ns ih => simp [fillNodes, ih]

/-- A node that no correction reaches into stays as it is. -/
theorem fillNode_eq_self (parent : Option Nat) {n : Node}
    (h : ∀ e ∈ n.listing parent, ∀ c ∈ corrections, ¬ Covers c e.2.mark) (next : Nat) :
    fillNode corrections next n = (n, next) := by
  induction n using Node.induction_on generalizing parent next with
  | h n ih =>
    have hchild : ∀ x ∈ n.children, ∀ next, fillNode corrections next x = (x, next) :=
      fun x hx next => ih x hx _ (fun e he => h e (Node.mem_listing_of_mem_child hx he)) next
    cases n with
    | atom mark a => rw [fillNode]
    | array mark ns =>
      have hns : fillNodes corrections next ns = (ns, next) := fillNodes_eq_self hchild next
      rw [fillNode, hns]
    | object mark ns =>
      have hns : fillNodes corrections next ns = (ns, next) := fillNodes_eq_self hchild next
      rw [fillNode, hns]
    | property mark colon key v => rw [fillNode, hchild v (by simp [Node.children])]
    | hole mark colon key =>
      have hnone : correctionFor? corrections mark = none :=
        correctionFor?_eq_none (h _ (Node.mem_listing_self parent _))
      rw [fillNode, hnone]

end

end Literal

namespace Shorthand

open Literal

/-! ## Corrections and members -/

/-- A correction made of a member. -/
def Records (c : Correction) (m : Member) : Prop :=
  c.span = m.span ∧ c.value.span = m.place ∧ m.value = .string c.value.value

/-- Corrections of the members with shorthand values: each has one, and there are no
    others. -/
structure Corrects (corrections : List Correction) (ms : List Member) : Prop where
  recorded : ∀ m ∈ ms, m.shorthand = true → ∃ c ∈ corrections, Records c m
  only : ∀ c ∈ corrections, ∃ m ∈ ms, m.shorthand = true ∧ Records c m

/-- Members one after the other; a word stands at the end of its member. -/
structure Arranged (ms : List Member) : Prop where
  apart : Apart ms
  word : ∀ m ∈ ms, m.shorthand = true → m.place.start ≤ m.place.stop ∧ m.place.stop = m.span.stop

theorem Denotes.arranged {cs : Text} {ms : List Member} {span : Span} {ts : List Token}
    (h : Denotes cs (.object ms span) ts) (hts : ts.Sublist (Token.scan cs)) : Arranged ms := by
  obtain ⟨-, hheld, hapart⟩ := h.reaches ((Token.scans_scan cs).ordered.sublist hts)
  refine ⟨hapart, fun m hm hs => ?_⟩
  obtain ⟨k, _, z, hz, hspan, hplace⟩ := hheld m hm
  rw [hplace hs, hspan]
  exact ⟨(scan_placed cs z (hts.subset hz)).start_le_stop, rfl⟩

/-- One of two members lies before the other. -/
def Member.Disjoint (a b : Member) : Prop :=
  a.span.stop ≤ b.span.start ∨ b.span.stop ≤ a.span.start

instance : Std.Symm Member.Disjoint := ⟨fun _ _ h => h.symm⟩

/-- Two members that reach over the same extent are one. -/
theorem Arranged.eq_of_covers {ms : List Member} (h : Arranged ms) {m x : Member} (hm : m ∈ ms)
    (hx : x ∈ ms) {mark : Mark} (hpos : 0 < mark.length)
    (hm' : m.span.start ≤ mark.offset ∧ mark.stop ≤ m.span.stop)
    (hx' : x.span.start ≤ mark.offset ∧ mark.stop ≤ x.span.stop) : m = x := by
  by_contra hne
  have hall : ms.Pairwise Member.Disjoint := h.apart.imp Or.inl
  have hstop : mark.stop = mark.offset + mark.length := rfl
  rcases hall.forall hm hx hne with hd | hd <;> omega

/-- A member with its value in place. -/
def Member.filled (m : Member) : Member := { m with shorthand := false }

section
variable {corrections : List Correction} {all : List Member} (ha : Arranged all)
  (hc : Corrects corrections all)

include ha hc

/-- A correction that reaches over an extent in a member is made of that member. -/
theorem records_of_covers {m : Member} (hm : m ∈ all) {mark : Mark} (hpos : 0 < mark.length)
    (hin : m.span.start ≤ mark.offset ∧ mark.stop ≤ m.span.stop) {c : Correction}
    (hmem : c ∈ corrections) (hcov : Covers c mark) : m.shorthand = true ∧ Records c m := by
  obtain ⟨x, hx, hs, hrec⟩ := hc.only c hmem
  have hcov' : x.span.start ≤ mark.offset ∧ mark.stop ≤ x.span.stop := hrec.1 ▸ hcov
  rw [ha.eq_of_covers hm hx hpos hin hcov']
  exact ⟨hs, hrec⟩

/-- **A correction gives its own member the value, and no other.** -/
theorem fillNode_parsed {cs : Text} {m : Member} (hm : m ∈ all) {n : Node} (hn : m.Parsed n)
    {parent : Option Nat} (hfits : ∀ e ∈ n.listing parent, e.2.Fits cs) (next : Nat) :
    ∃ n', fillNode corrections next n = (n', next + if m.shorthand then 1 else 0) ∧
      m.filled.Parsed n' := by
  cases hn with
  | @property mark colon key v hs hspan hkey hplace hv =>
    have hself : fillNode corrections next v = (v, next) := by
      refine fillNode_eq_self (some mark.id) (fun e he c hmem hcov => ?_) next
      have hlist : e ∈ (Node.property mark colon key v).listing parent :=
        Node.mem_listing_of_mem_child (by simp [Node.children]) he
      have hin := Node.within_of_fits hfits hlist
      have hstart : mark.offset = m.span.start := congrArg Span.start hspan
      have hstop : mark.stop = m.span.stop := congrArg Span.stop hspan
      have hrec := records_of_covers ha hc hm (hfits e hlist).length_pos
        ⟨hstart.ge.trans hin.1, hin.2.trans hstop.le⟩ hmem hcov
      rw [hs] at hrec
      cases hrec.1
    refine ⟨.property mark colon key v, ?_, .property rfl hspan hkey hplace hv⟩
    rw [fillNode, hself, hs]
    rfl
  | @hole mark colon key hs hoffset hstop hkey =>
    have hpos : 0 < mark.length := (hfits _ (Node.mem_listing_self parent _)).length_pos
    have hin : m.span.start ≤ mark.offset ∧ mark.stop ≤ m.span.stop := ⟨hoffset.ge, hstop⟩
    obtain ⟨c, hmem, hrec⟩ := hc.recorded m hm hs
    obtain ⟨c', hmem', hfor, hcov⟩ := exists_correctionFor? (m := mark) hmem (by rwa [Covers, hrec.1])
    obtain ⟨-, -, hval, hstr⟩ := records_of_covers ha hc hm hpos hin hmem' hcov
    obtain ⟨hle, hend⟩ := ha.word m hm hs
    refine ⟨fill mark colon key c' next, ?_, .property rfl ?_ hkey ?_ ?_⟩
    · rw [fillNode, hfor, hs]
      rfl
    · have hend' : mark.offset + max mark.length (c'.value.span.stop - mark.offset) = m.span.stop := by
        have : mark.stop = mark.offset + mark.length := rfl
        rw [hval]
        omega
      show (⟨mark.offset, _⟩ : Span) = m.span
      rw [Mark.stop, hend', hoffset]
    · show (⟨c'.value.span.start, _⟩ : Span) = m.place
      rw [hval]
      exact congrArg (Span.mk _) (Mark.stop_sub hle)
    · exact hstr.symm

/-- All the members of a literal get their values. -/
theorem fillNodes_parsed {cs : Text} {ms : List Member} {ns : List Node}
    (h : List.Forall₂ Member.Parsed ms ns) (hms : ms ⊆ all) {parent : Option Nat}
    (hfits : ∀ e ∈ Node.listingOf parent ns, e.2.Fits cs) (next : Nat) :
    ∃ ns', fillNodes corrections next ns = (ns', next + ms.countP (·.shorthand)) ∧
      List.Forall₂ Member.Parsed (ms.map Member.filled) ns' := by
  induction h generalizing next with
  | nil => exact ⟨[], by rw [fillNodes]; rfl, .nil⟩
  | @cons m n ms ns hn _ ih =>
    obtain ⟨hm, hms⟩ := List.cons_subset.1 hms
    rw [Node.listingOf_cons] at hfits
    obtain ⟨n', h1, h2⟩ := fillNode_parsed ha hc hm hn
      (fun e he => hfits e (List.mem_append_left _ he)) next
    obtain ⟨ns', h3, h4⟩ := ih hms (fun e he => hfits e (List.mem_append_right _ he))
      (next + if m.shorthand then 1 else 0)
    refine ⟨n' :: ns', ?_, .cons h2 h4⟩
    rw [fillNodes, h1]
    dsimp only
    rw [h3, List.countP_cons, Nat.add_assoc, Nat.add_comm (ms.countP _)]

end

/-! ## The schema -/

/-- The member that names the schema; it has no extent. -/
def schemaMember (uri : String) (offset : Nat) : Member :=
  ⟨schemaKey.toList, ⟨offset, offset⟩, ⟨offset, offset⟩, .string uri, false⟩

theorem schemaMember_name (uri : String) (offset : Nat) : (schemaMember uri offset).name = schemaKey :=
  String.ofList_toList

/-- The members that are put in front: one for the schema, unless there is one. -/
def schemaMembers (uri : String) (offset : Nat) (ms : List Member) : List Member :=
  if schemaKey ∈ ms.map Member.name then [] else [schemaMember uri offset]

theorem Member.Parsed.keyText? {m : Member} {n : Node} (h : m.Parsed n) : n.keyText? = some m.name := by
  cases h with
  | property _ _ hkey _ _ => exact hkey
  | hole _ _ _ hkey => exact hkey

theorem keyTexts_parsed {ms : List Member} {ns : List Node} (h : List.Forall₂ Member.Parsed ms ns) :
    ns.map Node.keyText? = ms.map fun m => some m.name := by
  induction h with
  | nil => rfl
  | cons hn _ ih => rw [List.map_cons, List.map_cons, hn.keyText?, ih]

/-- A key is found iff one of the members has it. -/
theorem isSome_property? {ms : List Member} {ns : List Node} (h : List.Forall₂ Member.Parsed ms ns)
    (mark : Mark) (name : String) :
    ((Node.object mark ns).property? name).isSome = true ↔ name ∈ ms.map Member.name := by
  have hmem : some name ∈ ns.map Node.keyText? ↔ name ∈ ms.map Member.name := by
    rw [keyTexts_parsed h]
    simp
  rw [← hmem, Node.property?, List.find?_isSome]
  simp

/-- The schema is put in front of an object that names none. -/
theorem insertSchema_parsed {d : Literal} {mark : Mark} {ms : List Member} {ns : List Node}
    (hroot : d.root = some (.object mark ns)) (h : List.Forall₂ Member.Parsed ms ns) (uri : String) :
    ((d.insertSchema uri).1 = true ↔ schemaKey ∉ ms.map Member.name) ∧
    ∃ front, (d.insertSchema uri).2.root = some (.object mark (front ++ ns)) ∧
      (d.insertSchema uri).2.errors = d.errors ∧
      List.Forall₂ Member.Parsed (schemaMembers uri mark.offset ms) front ∧
      ∀ corrections next, fillNodes corrections next front = (front, next) := by
  have hkey := isSome_property? h mark schemaKey
  unfold insertSchema schemaMembers
  rw [hroot]
  by_cases hown : schemaKey ∈ ms.map Member.name
  · rw [if_pos hown]
    dsimp only
    rw [if_pos (hkey.2 hown)]
    exact ⟨by simp [hown], [], hroot, rfl, .nil, fun _ _ => by rw [fillNodes]⟩
  · rw [if_neg hown]
    dsimp only
    rw [if_neg (hkey.not.2 hown)]
    refine ⟨by simp [hown], [schemaProperty d.count mark.offset uri], rfl, rfl, .cons ?_ .nil, ?_⟩
    · exact .property rfl rfl (congrArg some (schemaMember_name uri mark.offset).symm) rfl rfl
    · intro corrections next
      simp [fillNodes, fillNode, schemaProperty]

/-! ## Whole texts -/

/-- A text without faults whose tokens, without the comments, denote an object. -/
structure IsLiteral (cs : Text) (ms : List Member) (span : Span) : Prop where
  faultless : ∀ t ∈ Token.scan cs, t.fault = none
  denotes : ∃ ts e, Cursor.visible (Token.scan cs) = ts ++ [e] ∧ e.kind = .eof ∧
    Denotes cs (.object ms span) ts

/-- A literal is parsed into an object that fits its text. -/
theorem IsLiteral.parse_root {cs : Text} {ms : List Member} {span : Span} (h : IsLiteral cs ms span) :
    ∃ mark ns, (parse cs true).root = some (.object mark ns) ∧ mark.span = span ∧
      List.Forall₂ Member.Parsed ms ns ∧ (∀ e ∈ Node.listingOf (some mark.id) ns, e.2.Fits cs) ∧
      ∀ e ∈ (parse cs true).errors, Causes e.problem := by
  obtain ⟨ts, e, hv, he, hden⟩ := h.denotes
  have hquiet : ∀ t ∈ Token.scan cs, Cursor.Quiet (context cs true) t :=
    fun t ht => ⟨h.faultless t ht, fun _ => rfl⟩
  have hfair : Lenient (context cs true) cs (opening (context cs true) (Token.scan cs)) (ts ++ [e]) :=
    hv ▸ opening_fair (Token.scans_scan cs).ended hquiet Causes
  obtain ⟨mark, ns, q, hr, hq, hspan, hns⟩ := hden.yields _ [e] (by simp) hfair
  have hparse := parse_of_fair hr hq he
  refine ⟨mark, ns, by rw [hparse], hspan, hns, fun x hx => ?_, by rw [hparse]; exact hq.errors⟩
  refine (hr.laid (opening_on cs true)).fits none x ?_
  rw [Node.listingOf_singleton, Node.listing_eq]
  exact List.mem_cons_of_mem _ hx

theorem IsLiteral.arranged {cs : Text} {ms : List Member} {span : Span} (h : IsLiteral cs ms span) :
    Arranged ms := by
  obtain ⟨ts, e, hv, -, hden⟩ := h.denotes
  have hsub : (ts ++ [e]).Sublist (Token.scan cs) := hv ▸ List.filter_sublist
  exact hden.arranged ((List.sublist_append_left ts [e]).trans hsub)

/-! A literal with words at two depths, a key in single quotes and a comma at the end. -/

def sampleText : Text :=
  ['{', 'a', ':', 'b', ',', '\'', 'c', '\'', ':', '{', 'd', ':', 'e', '}', ',', '}']

def sampleMembers : List Member :=
  [⟨['a'], ⟨1, 4⟩, ⟨3, 4⟩, .string (String.ofList ['b']), true⟩,
    ⟨['c'], ⟨5, 14⟩, ⟨9, 14⟩, .object [], false⟩]

def sampleCorrections : List Correction := [⟨⟨1, 4⟩, ⟨⟨1, 2⟩, "a"⟩, ⟨⟨3, 4⟩, "b"⟩⟩]

def sampleToken (kind : TokenKind) (start stop : Nat) : Token :=
  ⟨kind, ⟨start, stop⟩, (Text.slice? sampleText ⟨start, stop⟩).getD [], none, false⟩

theorem sample_bare {start stop : Nat} {c : Char}
    (hs : Text.slice? sampleText ⟨start, stop⟩ = some [c]) (hc : c ≠ '\'' ∧ c ≠ '`' ∧ c ≠ '"') :
    Bare sampleText (sampleToken .unknown start stop) [c] := by
  refine ⟨rfl, hs, ?_⟩
  rintro _ ⟨⟩
  exact hc

theorem sample_isLiteral : IsLiteral sampleText sampleMembers ⟨0, 16⟩ := by
  have hword : Denotes sampleText
      (.member ⟨['d'], ⟨10, 13⟩, ⟨12, 13⟩, .string (String.ofList ['e']), true⟩)
      [sampleToken .unknown 10 11, sampleToken .colon 11 12, sampleToken .unknown 12 13] :=
    .word (.bare (sample_bare (by decide) (by decide))) rfl
      (.bare (sample_bare (by decide) (by decide)))
  have hinner : Denotes sampleText (.value (.object []) ⟨9, 14⟩) _ :=
    .nested (.object (a := sampleToken .openBrace 9 10) (z := sampleToken .closeBrace 13 14) rfl rfl
      (.lastMember hword) (by decide))
  have hfirst : Denotes sampleText (.member sampleMembers[0])
      [sampleToken .unknown 1 2, sampleToken .colon 2 3, sampleToken .unknown 3 4] :=
    .word (.bare (sample_bare (by decide) (by decide))) rfl
      (.bare (sample_bare (by decide) (by decide)))
  have hkey : Names sampleText (sampleToken .unknown 5 8) ['c'] := .single ⟨rfl, by decide⟩
  have hsecond : Denotes sampleText (.member sampleMembers[1]) _ :=
    .valued (c := sampleToken .colon 8 9) hkey rfl hinner
  exact ⟨by decide, _, sampleToken .eof 16 16, by decide, rfl,
    .object (a := sampleToken .openBrace 0 1) (z := sampleToken .closeBrace 15 16) rfl rfl
      (.next (d := sampleToken .comma 4 5) hfirst rfl
        (.trailing (d := sampleToken .comma 14 15) hsecond rfl)) (by decide)⟩

theorem sample_corrects : Corrects sampleCorrections sampleMembers := by
  constructor
  · intro m hm hs
    rcases List.mem_cons.1 hm with rfl | hm
    · exact ⟨_, List.mem_singleton_self _, rfl, rfl, rfl⟩
    · rw [List.mem_singleton.1 hm] at hs
      cases hs
  · intro c hc
    rw [List.mem_singleton.1 hc]
    exact ⟨_, List.mem_cons_self .., rfl, rfl, rfl, rfl⟩

/-! ## The repaired members -/

/-- The members after the repair: all have their values, and one names the schema. -/
def repairedMembers (uri : String) (offset : Nat) (ms : List Member) : List Member :=
  schemaMembers uri offset ms ++ ms.map Member.filled

theorem repairedMembers_nodup {ms : List Member} (h : (ms.map Member.key).Nodup) (uri : String)
    (offset : Nat) : ((repairedMembers uri offset ms).map Member.key).Nodup := by
  have hkeys : (ms.map Member.filled).map Member.key = ms.map Member.key := by
    rw [List.map_map]
    rfl
  unfold repairedMembers schemaMembers
  split
  · rwa [List.nil_append, hkeys]
  · next hown =>
    rw [List.singleton_append, List.map_cons, hkeys]
    refine List.nodup_cons.2 ⟨fun hmem => hown ?_, h⟩
    obtain ⟨m, hm, he⟩ := List.mem_map.1 hmem
    refine List.mem_map.2 ⟨m, hm, ?_⟩
    rw [Member.name, he]
    exact schemaMember_name uri offset

/-- The value of the repaired object: the schema, unless it is named already, and every
    member in its place. -/
theorem objectJson_repaired (uri : String) (offset : Nat) (ms : List Member) :
    objectJson (repairedMembers uri offset ms) =
      .object ((if schemaKey ∈ ms.map Member.name then [] else [(schemaKey, .string uri)]) ++
        ms.map Member.entry) := by
  have hfilter : (ms.map Member.filled).filter (!·.shorthand) = ms.map Member.filled := by
    rw [List.filter_eq_self]
    intro m hm
    obtain ⟨x, -, rfl⟩ := List.mem_map.1 hm
    rfl
  have hentries : (ms.map Member.filled).map Member.entry = ms.map Member.entry := by
    rw [List.map_map]
    rfl
  rw [objectJson, repairedMembers, List.filter_append, hfilter, List.map_append, hentries]
  unfold schemaMembers
  split
  · rfl
  · have hfront : ([schemaMember uri offset].filter (!·.shorthand)).map Member.entry =
        [(schemaKey, Json.string uri)] := by
      show [((schemaMember uri offset).name, Json.string uri)] = _
      rw [schemaMember_name]
    rw [hfront]

/-- The holes of a literal whose root has been parsed from its members. -/
theorem fillHoles_parsed {corrections : List Correction} {d : Literal} {cs : Text} {mark : Mark}
    {ms : List Member} {front ns : List Node} (hroot : d.root = some (.object mark (front ++ ns)))
    (hfront : ∀ next, fillNodes corrections next front = (front, next)) (ha : Arranged ms)
    (hc : Corrects corrections ms) (h : List.Forall₂ Member.Parsed ms ns)
    (hfits : ∀ e ∈ Node.listingOf (some mark.id) ns, e.2.Fits cs) :
    (d.fillHoles corrections).1 = ms.countP (·.shorthand) ∧
    (d.fillHoles corrections).2.errors = d.errors ∧
    ∃ ns', (d.fillHoles corrections).2.root = some (.object mark (front ++ ns')) ∧
      List.Forall₂ Member.Parsed (ms.map Member.filled) ns' := by
  obtain ⟨ns', hfill, hns'⟩ := fillNodes_parsed ha hc h (List.Subset.refl ms) hfits d.count
  have hall : fillNodes corrections d.count (front ++ ns) =
      (front ++ ns', d.count + ms.countP (·.shorthand)) := by
    rw [fillNodes_append, hfront, hfill]
  have hd : d.fillHoles corrections = (ms.countP (·.shorthand),
      { d with
        root := some (.object mark (front ++ ns'))
        count := d.count + ms.countP (·.shorthand) }) := by
    unfold fillHoles
    rw [hroot]
    dsimp only
    rw [fillNode, hall]
    simp
  rw [hd]
  exact ⟨rfl, rfl, ns', rfl, hns'⟩

end Shorthand

namespace Literal

open Shorthand

/-- A literal with its schema in front, its holes filled and without the errors that
    shorthand causes. -/
def repaired (d : Literal) (uri : String) (corrections : List Correction) : Literal :=
  ((d.insertSchema uri).2.fillHoles corrections).2.dropShorthandErrors

/-- **Repairing a literal with shorthand.**  The schema is put in front iff no member names
    it, every shorthand value is put in place, no errors are left, and the literal stands
    for the object that its text denotes.  This is how a region is prepared. -/
theorem repair_shorthand {cs : Text} {ms : List Member} {span : Span} {corrections : List Correction}
    (h : IsLiteral cs ms span) (hc : Corrects corrections ms) (uri : String) :
    (((parse cs true).insertSchema uri).1 = true ↔ schemaKey ∉ ms.map Member.name) ∧
    (((parse cs true).insertSchema uri).2.fillHoles corrections).1 = ms.countP (·.shorthand) ∧
    ((parse cs true).repaired uri corrections).errors = [] ∧
    (∃ mark ns, ((parse cs true).repaired uri corrections).root = some (.object mark ns) ∧
      mark.span = span ∧ List.Forall₂ Member.Parsed (repairedMembers uri span.start ms) ns) ∧
    ((parse cs true).repaired uri corrections).toJson? =
      some (.object ((if schemaKey ∈ ms.map Member.name then [] else [(schemaKey, .string uri)]) ++
        ms.map Member.entry)) ∧
    ∀ (r : Region) (d : Document) (l : LiteralState), d.text = cs → l.allowComments = true →
      r.corrections = corrections → r.schemaUri.getD (l.settings.schemaUriFor r.label) = uri →
      (r.prepare d l).literal = (parse cs true).repaired uri corrections := by
  obtain ⟨mark, ns, hroot, rfl, hns, hfits, herr⟩ := h.parse_root
  obtain ⟨hflag, front, hroot', herr', hfront, hself⟩ := insertSchema_parsed hroot hns uri
  obtain ⟨hcount, herr'', ns', hroot'', hns'⟩ :=
    fillHoles_parsed hroot' (hself corrections) h.arranged hc hns hfits
  have hparsed : List.Forall₂ Member.Parsed (repairedMembers uri mark.span.start ms) (front ++ ns') :=
    List.rel_append hfront hns'
  have hnd : (ms.map Member.key).Nodup := by
    obtain ⟨ts, e, -, -, hden⟩ := h.denotes
    exact hden.nodup
  refine ⟨hflag, hcount, ?_, ⟨mark, front ++ ns', hroot'', rfl, hparsed⟩, ?_, ?_⟩
  · show List.filter _ _ = []
    rw [herr'', herr', List.filter_eq_nil_iff]
    intro e he
    rw [herr e he]
    simp
  · have hfinal : ((parse cs true).repaired uri corrections).root =
        some (.object mark (front ++ ns')) :=
      hroot''
    rw [toJson?, hfinal, Option.map_some, objectJson_parsed hparsed (repairedMembers_nodup hnd uri _),
      objectJson_repaired]
  · rintro r d l rfl hallow rfl rfl
    rw [← hallow]
    rfl

theorem repair_shorthand_sample :
    IsLiteral sampleText sampleMembers ⟨0, 16⟩ ∧ Corrects sampleCorrections sampleMembers ∧
    ((parse sampleText true).repaired "s" sampleCorrections).errors = [] ∧
    ((parse sampleText true).repaired "s" sampleCorrections).toJson? =
      some (.object [("$schema", .string "s"), ("a", .string "b"), ("c", .object [])]) := by
  obtain ⟨-, -, herrors, -, hjson, -⟩ := repair_shorthand sample_isLiteral sample_corrects "s"
  refine ⟨sample_isLiteral, sample_corrects, herrors, ?_⟩
  rw [hjson, if_neg (by decide)]
  rfl

end Literal

end AnnotatedJson
