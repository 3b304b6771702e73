/-
  Bindings that share a location.

  A binding may ask that its schema be pointed at its definition.  Schemas are fetched and kept by
  location, so that one binding asks for all that name its location.

  * `SchemaMemo.Serves`: a memo without inline schemas that holds what a source of bodies gives;
  * `SchemaMemo.Serves.get`, `Workspace.serving_configure`: a get returns what its location gives,
    and settings that are taken over leave such a memo;
  * `Region.location?`, `Region.prepare_schemaUri?`: the location that a region points at, and
    `Region.Bound.location?`: that of its binding;
  * `SchemaFetcher.request_eq`: what the fetcher gives for a location;
  * `Region.schemaUsed?_shared`: the schema that a region uses.
-/
import Mathlib
import AnnotatedJson.Proofs.Answers
import AnnotatedJson.Proofs.Gating
import AnnotatedJson.Proofs.LoadedOnce
import AnnotatedJson.Proofs.RootReference
import AnnotatedJson.Proofs.SchemaProperty

namespace AnnotatedJson

/-! ## Memos of a fixed source -/

namespace SchemaMemo

/-- Nothing is inline, every location has a cell of its own, and a cell that is filled holds the
    schema that the source gives for its location. -/
structure Serves (body : String → Except Error String) (memo : SchemaMemo) : Prop where
  inline : memo.inline = []
  cells : ∀ uri cell, memo.cells.lookup uri = some cell → cell < memo.next
  filled : ∀ cell schema, memo.content? cell = some schema → cell < memo.next
  apart : ∀ uri uri' cell, memo.cells.lookup uri = some cell → memo.cells.lookup uri' = some cell →
    uri = uri'
  content : ∀ uri cell schema, memo.cells.lookup uri = some cell →
    memo.content? cell = some schema →
    parseBody uri (body uri) = .ok schema

variable {body : String → Except Error String} {memo : SchemaMemo} {uri : String}

theorem lookup_cons_cases {α β : Type} [BEq α] [LawfulBEq α] {k a : α} {b c : β} {l : List (α × β)}
    (h : List.lookup k ((a, b) :: l) = some c) : k = a ∧ c = b ∨ l.lookup k = some c := by
  by_cases hk : k = a
  · subst hk
    rw [List.lookup_cons_self, Option.some_inj] at h
    exact .inl ⟨rfl, h.symm⟩
  · rw [List.lookup_cons, beq_eq_false_iff_ne.2 hk] at h
    exact .inr h

/-- A reset forgets all cells; those to come are empty. -/
theorem serves_reset
    (hfilled : ∀ cell schema, memo.content? cell = some schema → cell < memo.next) :
    (memo.reset []).Serves body := by
  have hnone : ∀ uri, (memo.reset []).cells.lookup uri = none := by
    intro uri
    simp [reset, forget, setInline]
  refine ⟨rfl, ?_, hfilled, ?_, ?_⟩
  · intro uri cell hcell
    cases (hnone uri).symm.trans hcell
  · intro uri uri' cell hcell
    cases (hnone uri).symm.trans hcell
  · intro uri cell schema hcell
    cases (hnone uri).symm.trans hcell

theorem Serves.cellFor (h : memo.Serves body) (uri : String) :
    (memo.cellFor uri).2.Serves body ∧
      (memo.cellFor uri).2.cells.lookup uri = some (memo.cellFor uri).1 := by
  rcases LoadScene.cellFor_cases memo uri with ⟨cell, hcell, heq⟩ | ⟨hnone, heq⟩
  · rw [heq]
    exact ⟨h, hcell⟩
  · rw [heq]
    refine ⟨⟨h.inline, ?_, ?_, ?_, ?_⟩, List.lookup_cons_self⟩
    · intro uri' cell hcell
      rcases lookup_cons_cases hcell with ⟨-, rfl⟩ | hcell
      · exact Nat.lt_succ_self _
      · exact (h.cells uri' cell hcell).trans (Nat.lt_succ_self _)
    · intro cell schema hschema
      exact (h.filled cell schema hschema).trans (Nat.lt_succ_self _)
    · intro uri₁ uri₂ cell hcell₁ hcell₂
      rcases lookup_cons_cases hcell₁ with ⟨rfl, rfl⟩ | hold₁ <;>
        rcases lookup_cons_cases hcell₂ with ⟨hsame, hnext⟩ | hold₂
      · exact hsame.symm
      · exact absurd (h.cells uri₂ _ hold₂) (lt_irrefl _)
      · exact absurd (h.cells uri₁ _ hold₁) (hnext ▸ lt_irrefl _)
      · exact h.apart uri₁ uri₂ cell hold₁ hold₂
    · intro uri' cell schema hcell hschema
      rcases lookup_cons_cases hcell with ⟨-, rfl⟩ | hcell
      · exact absurd (h.filled _ schema hschema) (lt_irrefl _)
      · exact h.content uri' cell schema hcell hschema

theorem Serves.settle (h : memo.Serves body) {cell : Nat}
    (hcell : memo.cells.lookup uri = some cell) :
    (memo.settle cell (parseBody uri (body uri))).Serves body := by
  unfold SchemaMemo.settle
  split
  next schema hparse =>
    refine ⟨h.inline, h.cells, ?_, h.apart, ?_⟩
    · intro cell' schema' hschema'
      rcases lookup_cons_cases hschema' with ⟨rfl, -⟩ | hold
      · exact h.cells uri _ hcell
      · exact h.filled cell' schema' hold
    · intro uri' cell' schema' hcell' hschema'
      rcases lookup_cons_cases hschema' with ⟨rfl, rfl⟩ | hold
      · rw [h.apart uri' uri _ hcell' hcell]
        exact hparse
      · exact h.content uri' cell' schema' hcell' hold
  next => exact h

/-- **A get returns what its location gives**, loaded or kept. -/
theorem Serves.get (h : memo.Serves body) (uri : String) :
    (memo.get (fun uri (_ : Unit) => (body uri, ())) uri ()).1 = parseBody uri (body uri) ∧
      (memo.get (fun uri (_ : Unit) => (body uri, ())) uri ()).2.1.Serves body := by
  obtain ⟨hserves, hcell⟩ := h.cellFor uri
  rcases LoadScene.get_cases memo (fun uri (_ : Unit) => (body uri, ())) uri () with
    ⟨schema, hinline, -⟩ | ⟨-, ⟨schema, hschema, heq⟩ | ⟨-, heq⟩⟩
  · rw [inlineAt?, h.inline] at hinline
    cases hinline
  · rw [heq]
    exact ⟨(hserves.content uri _ schema hcell hschema).symm, hserves⟩
  · rw [heq]
    exact ⟨rfl, hserves.settle hcell⟩

end SchemaMemo

/-- Every cell that is filled was handed out before. -/
theorem LoadScene.Reachable.cell_lt {parts : TableParts} {w : LoadScene} (hw : Reachable parts w)
    {cell : Nat} {schema : Json} (h : w.memo.content? cell = some schema) : cell < w.memo.next := by
  obtain ⟨a, i, uri, body, hanswered, -⟩ := hw.sound.filled cell schema h
  obtain ⟨⟨j, -, hjoined⟩, -⟩ := answered_law hw hanswered
  exact (hw.sound.joined j i uri cell hjoined).1

/-! ## Settings that are taken over -/

namespace Workspace

/-- The workspace works with some settings, and its memo serves a source of bodies. -/
structure Serving (s : Settings) (body : String → Except Error String) (w : Workspace) : Prop where
  body_eq : w.schemaBody = body
  settings : w.literals.settings = s
  comments : w.literals.allowComments = true
  serves : w.literals.schemas.Serves body

section
variable {s : Settings} {body : String → Except Error String} {w : Workspace}

theorem Serving.schemaAt? (h : w.Serving s body) (uri : String) :
    (Workspace.schemaAt? uri w).1 = (SchemaMemo.parseBody uri (body uri)).toOption ∧
      (Workspace.schemaAt? uri w).2.Serving s body := by
  obtain ⟨hschema, hserves⟩ := h.serves.get uri
  unfold Workspace.schemaAt?
  rw [h.body_eq]
  exact ⟨congrArg Except.toOption hschema, h.body_eq, h.settings, h.comments, hserves⟩

theorem Serving.loadAll (h : w.Serving s body) (uris : List String) :
    ((uris.forM fun uri => discard (Workspace.schemaAt? uri) : StateM Workspace Unit) w).2.Serving
      s body := by
  induction uris generalizing w with
  | nil => exact h
  | cons uri uris ih => exact ih (h.schemaAt? uri).2

end

/-- The workspace after the fetcher and the mode of annotated literals took over settings. -/
def withSettings (w : Workspace) (f : SchemaFetcher) (s : Settings) : Workspace :=
  (Mode.literal.configure s { w with schemaBody := (f.configure s).request }).2

theorem serving_configure {w : Workspace} (f : SchemaFetcher) (s : Settings)
    (hfilled : ∀ cell schema, w.literals.schemas.content? cell = some schema →
      cell < w.literals.schemas.next) :
    (w.withSettings f s).Serving s (f.configure s).request := by
  have hreset : Serving s (f.configure s).request
      ({ w with schemaBody := (f.configure s).request }.modifyLiterals fun l =>
        { l with settings := s, validate := s.validate, allowComments := true,
                 schemas := l.schemas.reset [] }) :=
    ⟨rfl, rfl, rfl, SchemaMemo.serves_reset hfilled⟩
  exact hreset.loadAll (LiteralMode.boundSchemas s)

end Workspace

/-! ## The location of a region -/

/-- A schema that was put in front of a literal is the one that it names. -/
theorem Literal.LacksSchema.schemaUri? {d : Literal} (h : d.LacksSchema) (uri : String)
    (corrections : List Correction) :
    ((d.insertSchema uri).2.fillHoles corrections).2.dropShorthandErrors.schemaUri? = some uri := by
  obtain ⟨m, ps, hroot, hps⟩ := h.root
  rw [insertSchema_eq hroot hps, dropShorthandErrors, Literal.schemaUri?, fillHoles_root]
  simp [Node.pointed, schemaProperty, fillNode, fillNodes, Node.valueOf?, Node.property?,
    Node.keyText?, Node.key?, Node.text?, Node.value?]

namespace Region

/-- A region that was found with the bindings of some settings, or that names no location. -/
def Bound (s : Settings) (r : Region) : Prop :=
  r.schemaUri = none ∨ ∃ cs root, r ∈ Region.ofTree s.bindings cs root

/-- The location of the schema of a region: the one that its literal names itself, or that of the
    region where the literal is an object that names none. -/
def location? (s : Settings) (r : Region) (d : Document) : Option String :=
  if (Literal.parse d.text true).LacksSchema then some (r.schemaUri.getD (s.schemaUriFor r.label))
  else ((Literal.parse d.text true).fillHoles r.corrections).2.schemaUri?

theorem prepare_schemaUri? (r : Region) (d : Document) {l : LiteralState}
    (hcomments : l.allowComments = true) :
    (r.prepare d l).literal.schemaUri? = r.location? l.settings d := by
  rw [prepare_literal, hcomments, location?]
  split
  next h => exact h.schemaUri? _ r.corrections
  next h =>
    rw [Literal.insertSchema_eq_self h]
    rfl

/-- A region has the label and the location of the first binding with its label. -/
theorem binding_of_ofTree {bindings : List SchemaBinding} {cs : Text} {root : HostNode} {r : Region}
    (h : r ∈ Region.ofTree bindings cs root) :
    ∃ b, bindings.find? (fun b' => b'.label = b.label) = some b ∧
      r.label = some b.label ∧ r.schemaUri = some b.schema := by
  unfold Region.ofTree at h
  split at h
  · cases h
  · obtain ⟨q, c, b, object, hmarked, rfl⟩ :=
      (HostNode.listed_regionsUnder root 0).exists_of_mem r h
    obtain ⟨p, i, parent, n, -, -, -, ⟨-, earlier, later, -, hfirst, -⟩, -⟩ := hmarked
    have hlabel : b.label = c.label cs := by simpa using List.find?_some hfirst
    exact ⟨b, by rw [hlabel]; exact hfirst, rfl, rfl⟩

variable {s : Settings} {b : SchemaBinding} {r : Region}

theorem Bound.uri (h : r.Bound s) (hfirst : s.binding? b.label = some b)
    (hlabel : r.label = some b.label) :
    r.schemaUri.getD (s.schemaUriFor r.label) = b.schema := by
  rcases h with hnone | ⟨cs, root, hr⟩
  · rw [hnone, hlabel, Option.getD_none, Settings.schemaUriFor, Option.bind_some, hfirst]
    rfl
  · obtain ⟨b', hfirst', hlabel', huri⟩ := binding_of_ofTree hr
    have hsame : b'.label = b.label := Option.some.inj (hlabel'.symm.trans hlabel)
    rw [hsame] at hfirst'
    cases hfirst.symm.trans hfirst'
    rw [huri, Option.getD_some]

/-- A region whose literal is an object that names no schema has the location of the first binding
    with its label. -/
theorem Bound.location? {d : Document} (h : r.Bound s) (hfirst : s.binding? b.label = some b)
    (hlabel : r.label = some b.label) (hlacks : (Literal.parse d.text true).LacksSchema) :
    r.location? s d = some b.schema := by
  rw [Region.location?, if_pos hlacks, h.uri hfirst hlabel]

end Region

/-! ## What the fetcher gives -/

/-- Some binding asks that the schema at a location be pointed at its definition. -/
def Settings.asksAt (s : Settings) (uri : String) : Bool :=
  s.bindings.any fun b => b.schema = uri ∧ b.amisStyle = true

theorem Settings.asksAt_iff {s : Settings} {uri : String} :
    s.asksAt uri = true ↔ ∃ b ∈ s.bindings, b.schema = uri ∧ b.amisStyle = true := by
  simp [asksAt]

/-- Where the bindings of a location agree, each of them decides. -/
theorem Settings.asksAt_eq {s : Settings} {b : SchemaBinding} (hb : b ∈ s.bindings)
    (hagree : ∀ b' ∈ s.bindings, b'.schema = b.schema → b'.amisStyle = b.amisStyle) :
    s.asksAt b.schema = b.amisStyle := by
  rw [Bool.eq_iff_iff, asksAt_iff]
  constructor
  · rintro ⟨b', hb', huri, hasks⟩
    rwa [← hagree b' hb' huri]
  · intro hasks
    exact ⟨b, hb, rfl, hasks⟩

theorem SchemaFetcher.request_eq {f : SchemaFetcher} {uri body : String}
    (h : f.fetch uri = .ok body) (s : Settings) : (f.configure s).request uri =
      .ok (if s.asksAt uri then pointAtDefinition body else body) := by
  have hfetch : (f.configure s).fetch uri = .ok body := h
  have hpointed : (f.configure s).pointed.contains uri = s.asksAt uri := by
    rw [Bool.eq_iff_iff, Settings.asksAt_iff, List.contains_iff_mem]
    simp only [configure, List.mem_map, List.mem_filter]
    constructor
    · rintro ⟨b, ⟨hb, hasks⟩, huri⟩
      exact ⟨b, hb, huri, hasks⟩
    · rintro ⟨b, hb, huri, hasks⟩
      exact ⟨b, ⟨hb, hasks⟩, huri⟩
  rw [request, hfetch, hpointed]
  rfl

/-- The schema with some members; if it is asked for, its root is pointed at its definition.  Then
    its numbers have been printed and read again. -/
def givenSchema (asked : Bool) (ms : List (String × Json)) : Json :=
  if asked then .object (Json.withMember "$ref" (.string rootDefinition) (Json.rereadMembers ms))
  else .object ms

theorem ofText?_given {body : String} {ms : List (String × Json)}
    (h : Json.ofText? body.toList = some (.object ms)) (asked : Bool) :
    Json.ofText? (if asked then pointAtDefinition body else body).toList =
      some (givenSchema asked ms) := by
  cases asked with
  | true => exact ofText?_pointAtDefinition h
  | false => exact h

/-! ## The schema of a region -/

namespace Region

/-- The schema that is used in answers about a region. -/
def schemaUsed? (r : Region) (d : Document) (w : Workspace) : Option Json :=
  (LiteralMode.schemaOf? (r.prepare d w.literals).literal w).1

section
variable {parts : TableParts} {tasks : Nat → Option LoadTask} {history : List LoadEvent}
  {f : SchemaFetcher} {s : Settings} {w : Workspace} {uri body : String} {ms : List (String × Json)}

theorem schemaUsed?_eq {r : Region} {d : Document}
    (hmemo : LoadScene.Reachable parts ⟨w.literals.schemas, tasks, history⟩)
    (hfetch : f.fetch uri = .ok body) (hbody : Json.ofText? body.toList = some (.object ms))
    (huri : r.location? s d = some uri) :
    r.schemaUsed? d (w.withSettings f s) = some (givenSchema (s.asksAt uri) ms) := by
  have hserving := Workspace.serving_configure f s fun cell schema h => hmemo.cell_lt h
  have hnamed : (r.prepare d (w.withSettings f s).literals).literal.schemaUri? = some uri := by
    rw [prepare_schemaUri? r d hserving.comments, hserving.settings, huri]
  have hparse : SchemaMemo.parseBody uri ((f.configure s).request uri) =
      .ok (givenSchema (s.asksAt uri) ms) := by
    rw [SchemaFetcher.request_eq hfetch, SchemaMemo.parseBody, Except.bind, ofText?_given hbody]
  rw [schemaUsed?, LiteralMode.schemaOf?, hnamed]
  exact (hserving.schemaAt? uri).1.trans (congrArg Except.toOption hparse)

/-- **One binding asks for all that share its location.**  Let settings be taken over by the fetcher
    and the mode of annotated literals, in any state of the memo, and let the schema at a location
    be an object.  All regions with that location use the object with `$ref` set if some binding of
    the location asks for it, and the object as it is if none does.  For a binding that is the first
    with its label, these are the regions with its label, unless their literals name a schema
    themselves or are no objects, and the binding itself decides if all that share its location
    agree with it. -/
theorem schemaUsed?_shared (hmemo : LoadScene.Reachable parts ⟨w.literals.schemas, tasks, history⟩)
    (hfetch : f.fetch uri = .ok body) (hbody : Json.ofText? body.toList = some (.object ms)) :
    (∀ (r : Region) (d : Document), r.location? s d = some uri →
      ((∃ b ∈ s.bindings, b.schema = uri ∧ b.amisStyle = true) →
        r.schemaUsed? d (w.withSettings f s) = some (givenSchema true ms)) ∧
      ((∀ b ∈ s.bindings, b.schema = uri → b.amisStyle = false) →
        r.schemaUsed? d (w.withSettings f s) = some (givenSchema false ms))) ∧
    ∀ b, s.binding? b.label = some b → b.schema = uri → ∀ (r : Region) (d : Document),
      r.label = some b.label → r.Bound s → (Literal.parse d.text true).LacksSchema →
        r.location? s d = some uri ∧
        ((∀ b' ∈ s.bindings, b'.schema = uri → b'.amisStyle = b.amisStyle) →
          r.schemaUsed? d (w.withSettings f s) = some (givenSchema b.amisStyle ms)) := by
  constructor
  · intro r d huri
    rw [schemaUsed?_eq hmemo hfetch hbody huri]
    refine ⟨fun hasks => ?_, fun hnone => ?_⟩
    · rw [Settings.asksAt_iff.2 hasks]
    · have hasks : s.asksAt uri = false := by
        rw [Bool.eq_false_iff, ne_eq, Settings.asksAt_iff]
        rintro ⟨b, hb, hschema, hasks⟩
        rw [hnone b hb hschema] at hasks
        cases hasks
      rw [hasks]
  · rintro b hfirst rfl r d hlabel hbound hlacks
    have huri : r.location? s d = some b.schema := hbound.location? hfirst hlabel hlacks
    refine ⟨huri, fun hagree => ?_⟩
    rw [schemaUsed?_eq hmemo hfetch hbody huri,
      Settings.asksAt_eq (List.mem_of_find?_eq_some hfirst) hagree]

end

/-- A schema. -/
def plainSchema : String := String.ofList ['{', '"', 'a', '"', ':', '1', '}']

/-- The schema in the file `/s` and on a server. -/
def plainSource : SchemaFetcher where
  files := ⟨[⟨["s"], some plainSchema⟩]⟩
  network uri := if uri = "https://h/t" then some ⟨200, some plainSchema⟩ else none

/-- Two annotated objects. -/
def twoLabels : Text :=
  ['/', '/', 'a', '\n', 'x', '=', '{', '}', '\n', '/', '/', 'b', '\n', 'y', '=', '{', '}']

/-- The text of a region. -/
def emptyObject : Document := .ofText default "" 0 ['{', '}']

/-- The text of a region that names the schema on the server. -/
def ownSchema : Document := .ofText default "" 0
  ['{', '"', '$', 's', 'c', 'h', 'e', 'm', 'a', '"', ':',
    '"', 'h', 't', 't', 'p', 's', ':', '/', '/', 'h', '/', 't', '"', '}']

/-- A workspace at the start. -/
def newWorkspace : Workspace := .ofSettings {} fun uri => .error (.schemaFetch uri)

/-- The labels have locations of their own. -/
def apartSettings : Settings where
  bindings := [⟨"a", "file:///s", false⟩, ⟨"b", "https://h/t", true⟩]

/-- The labels share a location. -/
def sharedSettings : Settings where
  bindings := [⟨"a", "file:///s", false⟩, ⟨"b", "file:///s", true⟩]

theorem reachable_newWorkspace :
    LoadScene.Reachable ⟨1, fun _ => 0⟩ ⟨newWorkspace.literals.schemas, fun _ => none, []⟩ := .start

theorem fetch_file : plainSource.fetch "file:///s" = .ok plainSchema := by cbv

theorem fetch_server : plainSource.fetch "https://h/t" = .ok plainSchema := by cbv

theorem ofText?_plainSchema :
    Json.ofText? plainSchema.toList = some (.object [("a", .number (.int 1))]) := by
  cbv

theorem givenSchema_plain : givenSchema true [("a", .number (.int 1))] =
    .object [("a", .number (.int 1)), ("$ref", .string "#/definitions/SchemaObject")] := by
  cbv

theorem location?_ownSchema (s : Settings) (r : Region) :
    r.location? s ownSchema = some "https://h/t" := by
  have howns : ¬ (Literal.parse ownSchema.text true).LacksSchema := by decide +kernel
  have hroot : (Literal.parse ownSchema.text true).root = some (.object ⟨0, 0, 25⟩
      [.property ⟨1, 1, 23⟩ (some 10) (.atom ⟨2, 1, 9⟩ (.string schemaKey))
        (.atom ⟨3, 11, 13⟩ (.string "https://h/t"))]) := by cbv
  rw [location?, if_neg howns, Literal.schemaUri?, Literal.fillHoles_root, hroot]
  simp [Literal.fillNode, Literal.fillNodes, Node.valueOf?, Node.property?, Node.keyText?,
    Node.key?, Node.text?, Node.value?]

theorem schemaUsed?_shared_apart :
    (Region.extract .typeScript apartSettings.bindings twoLabels).map Region.label =
      [some "a", some "b"] ∧
    ∀ r ∈ Region.extract .typeScript apartSettings.bindings twoLabels,
      (r.label = some "a" →
        r.schemaUsed? emptyObject (newWorkspace.withSettings plainSource apartSettings) =
          some (.object [("a", .number (.int 1))]) ∧
        r.schemaUsed? ownSchema (newWorkspace.withSettings plainSource apartSettings) =
          some (.object
            [("a", .number (.int 1)), ("$ref", .string "#/definitions/SchemaObject")])) ∧
      (r.label = some "b" →
        r.schemaUsed? emptyObject (newWorkspace.withSettings plainSource apartSettings) =
          some (.object
            [("a", .number (.int 1)), ("$ref", .string "#/definitions/SchemaObject")])) := by
  have hlacks : (Literal.parse emptyObject.text true).LacksSchema := by decide +kernel
  obtain ⟨-, hfile⟩ := schemaUsed?_shared (s := apartSettings) reachable_newWorkspace fetch_file
    ofText?_plainSchema
  obtain ⟨hanywhere, hserver⟩ := schemaUsed?_shared (s := apartSettings) reachable_newWorkspace
    fetch_server ofText?_plainSchema
  rw [← givenSchema_plain]
  refine ⟨by decide +kernel, fun r hr => ⟨fun hlabel => ⟨?_, ?_⟩, fun hlabel => ?_⟩⟩
  · exact (hfile ⟨"a", "file:///s", false⟩ (by decide) rfl r emptyObject hlabel (.inr ⟨_, _, hr⟩)
      hlacks).2 (by decide)
  · exact (hanywhere r ownSchema (location?_ownSchema apartSettings r)).1 (by decide)
  · exact (hserver ⟨"b", "https://h/t", true⟩ (by decide) rfl r emptyObject hlabel (.inr ⟨_, _, hr⟩)
      hlacks).2 (by decide)

/-- A binding that does not ask, and whose schema is given a `$ref` all the same. -/
theorem schemaUsed?_unasked :
    sharedSettings.binding? "a" = some ⟨"a", "file:///s", false⟩ ∧
    plainSource.fetch "file:///s" = .ok plainSchema ∧
    Json.ofText? plainSchema.toList = some (.object [("a", .number (.int 1))]) ∧
    (Region.extract .typeScript sharedSettings.bindings twoLabels).map Region.label =
      [some "a", some "b"] ∧
    ∀ r ∈ Region.extract .typeScript sharedSettings.bindings twoLabels, r.label = some "a" →
      r.schemaUsed? emptyObject (newWorkspace.withSettings plainSource sharedSettings) =
        some (.object [("a", .number (.int 1)),
          ("$ref", .string "#/definitions/SchemaObject")]) := by
  refine ⟨by decide, fetch_file, ofText?_plainSchema, by decide +kernel, fun r hr hlabel => ?_⟩
  have hbound : r.Bound sharedSettings := .inr ⟨_, _, hr⟩
  have huri : r.location? sharedSettings emptyObject = some "file:///s" :=
    hbound.location? (b := ⟨"a", "file:///s", false⟩) (by decide) hlabel (by decide +kernel)
  rw [← givenSchema_plain]
  exact schemaUsed?_eq reachable_newWorkspace fetch_file ofText?_plainSchema huri

end Region

end AnnotatedJson
