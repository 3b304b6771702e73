/-
  The tree of a parsed literal.

  * `Node.Fits`: a node has an extent between character boundaries of the text, its
    children lie in it one after the other, and the key of a property is a string;
  * `Cursor.Laid`: the nodes of a reading are numbered in text order and lie between the
    two cursors; `Reads.laid`: every reading is laid out so;
  * `Literal.WellFormed` says what that makes of a whole literal, and
    `Literal.parse_wellFormed` that every text has a well-formed one.
-/
import Mathlib
import AnnotatedJson.Literal.Path
import AnnotatedJson.Proofs.Placement
import AnnotatedJson.Proofs.Reading

namespace AnnotatedJson

theorem Mark.stop_sub {id start stop : Nat} (h : start ≤ stop) :
    (⟨id, start, stop - start⟩ : Mark).stop = stop := Nat.add_sub_cancel' h

namespace Node

/-! ## Nodes in a text -/

/-- A node that fits a text. -/
structure Fits (cs : Text) (n : Node) : Prop where
  length_pos : 0 < n.mark.length
  start_boundary : Text.isBoundary cs n.offset = true
  stop_boundary : Text.isBoundary cs n.stop = true
  within : n.stop ≤ Text.bytes cs
  nested : ∀ c ∈ n.children, n.offset ≤ c.offset ∧ c.stop ≤ n.stop
  ordered : n.children.Pairwise fun a b => a.stop ≤ b.offset
  key_string : ∀ k ∈ n.key?, ∃ m s, k = .atom m (.string s)

theorem listing_eq (parent : Option Nat) (n : Node) :
    n.listing parent = (parent, n) :: listingOf (some n.id) n.children := by
  cases n <;> simp [listing, listingOf, children, id, mark]

theorem listingOf_singleton (parent : Option Nat) (n : Node) :
    listingOf parent [n] = n.listing parent := by simp [listingOf]

theorem listingOf_cons (parent : Option Nat) (n : Node) (ns : List Node) :
    listingOf parent (n :: ns) = n.listing parent ++ listingOf parent ns := by rw [listingOf]

end Node

namespace Cursor

variable {ctx : ParseContext} {cs : Text} {p q r : Cursor}

/-! ## Numbers are only taken by nodes -/

@[simp] theorem skipLoop_nextId (stops : List TokenKind) (fuel : Nat) (p : Cursor) :
    (p.skipLoop ctx stops fuel).nextId = p.nextId := by
  induction fuel generalizing p with
  | zero => rfl
  | succ fuel ih =>
    rw [skipLoop]
    split
    · rfl
    · rw [ih, advance_nextId]

@[simp] theorem recover_nextId (problem : Problem) (stops : List TokenKind) :
    (p.recover ctx problem stops).nextId = p.nextId := by simp [recover]

@[simp] theorem separate_nextId (b : Bool) (problem : Problem) :
    (p.separate ctx b problem).nextId = p.nextId := by
  unfold separate
  split_ifs <;> simp

@[simp] theorem noteTrailing_nextId (b : Bool) (comma : Nat) :
    (p.noteTrailing b comma).nextId = p.nextId := by
  unfold noteTrailing
  split <;> simp

@[simp] theorem passKey_nextId (rep : Bool) : (p.passKey ctx rep).nextId = p.nextId + 2 := by
  unfold passKey
  dsimp only
  split <;> simp

@[simp] theorem passColon_nextId : (p.passColon ctx).nextId = p.nextId := by
  unfold passColon
  split <;> simp

@[simp] theorem passNoValue_nextId : (p.passNoValue ctx).nextId = p.nextId := by
  unfold passNoValue
  split <;> simp

@[simp] theorem close_nextId (id start : Nat) (closer : TokenKind) (problem : Problem) :
    (p.close ctx id start closer problem).2.nextId = p.nextId := by
  unfold close
  split <;> simp

theorem key?_nextId {key : Text} (h : p.key? ctx = some (key, q)) : q.nextId = p.nextId := by
  rcases key?_spec h with ⟨-, -, rfl⟩ | ⟨-, -, rfl⟩ <;> simp

/-! ## Reading moves ahead -/

/-- A cursor at a token of the text that is not before another one. -/
structure Ahead (cs : Text) (p q : Cursor) : Prop where
  on : On cs q
  start_le : p.start ≤ q.start

theorem Ahead.trans (h : Ahead cs p q) (h' : Ahead cs q r) : Ahead cs p r :=
  ⟨h'.on, h.start_le.trans h'.start_le⟩

theorem Moves.ahead (h : Moves ctx p.stream p q) (hp : On cs p) : Ahead cs p q :=
  ⟨h.on hp, h.start_le hp⟩

theorem Reads.ahead {task : Task} {out : List Node} (h : Reads ctx task p out q) (hp : On cs p) :
    Ahead cs p q := (h.goes hp.toReady).ahead hp

/-! ## Readings are laid out -/

/-- Nodes laid out between two cursors: numbered in text order, one after the other,
    and each of them fits the text. -/
structure Laid (cs : Text) (p : Cursor) (out : List Node) (q : Cursor) : Prop where
  numbered : ∃ k, q.nextId = p.nextId + k ∧
    ∀ parent, (Node.listingOf parent out).map (·.2.id) = List.range' p.nextId k
  bounds : ∀ n ∈ out, p.start ≤ n.offset ∧ n.stop ≤ q.start
  ordered : out.Pairwise fun a b => a.stop ≤ b.offset
  fits : ∀ parent, ∀ e ∈ Node.listingOf parent out, e.2.Fits cs

theorem Laid.nil (h : q.nextId = p.nextId) : Laid cs p [] q :=
  ⟨⟨0, h, fun _ => rfl⟩, by simp, .nil, by simp [Node.listingOf]⟩

/-- Nodes are laid out from any earlier cursor, if no number was taken in between. -/
theorem Laid.startFrom {p' : Cursor} {out : List Node} (h : Laid cs p out q) (hp : p.nextId = p'.nextId)
    (ha : Ahead cs p' p) : Laid cs p' out q := by
  obtain ⟨k, h1, h2⟩ := h.numbered
  refine ⟨⟨k, by rw [h1, hp], fun parent => by rw [h2, hp]⟩, fun n hn => ?_, h.ordered, h.fits⟩
  have := h.bounds n hn
  exact ⟨ha.start_le.trans this.1, this.2⟩

/-- Nodes laid out after a node. -/
theorem Laid.cons {n : Node} {ns : List Node} (h : Laid cs p [n] q) (h' : Laid cs q ns r)
    (hpq : Ahead cs p q) (hqr : Ahead cs q r) : Laid cs p (n :: ns) r := by
  obtain ⟨j, hj, hjs⟩ := h.numbered
  obtain ⟨k, hk, hks⟩ := h'.numbered
  have hn := h.bounds n (List.mem_singleton_self n)
  refine ⟨⟨j + k, by omega, fun parent => ?_⟩, fun m hm => ?_, ?_, fun parent e he => ?_⟩
  · have h1 := hjs parent
    rw [Node.listingOf_singleton] at h1
    rw [Node.listingOf_cons, List.map_append, h1, hks, hj]
    exact List.range'_append_1 ..
  · rcases List.mem_cons.1 hm with rfl | hm
    · exact ⟨hn.1, hn.2.trans hqr.start_le⟩
    · have := h'.bounds m hm
      exact ⟨hpq.start_le.trans this.1, this.2⟩
  · exact List.pairwise_cons.2 ⟨fun m hm => hn.2.trans (h'.bounds m hm).1, h'.ordered⟩
  · rw [Node.listingOf_cons, List.mem_append] at he
    rcases he with he | he
    · exact h.fits parent e (by rwa [Node.listingOf_singleton])
    · exact h'.fits parent e he

/-- A node around its children. -/
theorem Laid.node {p₁ q₁ : Cursor} {n : Node} (h : Laid cs p₁ n.children q₁) (hid : n.id = p.nextId)
    (hnext : p₁.nextId = p.nextId + 1) (hoff : n.offset = p.start) (hp : p.start ≤ p₁.start)
    (hlen : 0 < n.mark.length) (hstart : Text.isBoundary cs p.start = true)
    (hstop : Text.isBoundary cs n.stop = true) (hin : ∀ c ∈ n.children, c.stop ≤ n.stop)
    (hkey : ∀ k ∈ n.key?, ∃ m s, k = .atom m (.string s)) (hr : r.nextId = q₁.nextId)
    (hr' : n.stop ≤ r.start) : Laid cs p [n] r := by
  obtain ⟨k, hk, hks⟩ := h.numbered
  refine ⟨⟨k + 1, by omega, fun parent => ?_⟩, ?_, List.pairwise_singleton _ _, fun parent e he => ?_⟩
  · rw [Node.listingOf_singleton, Node.listing_eq, List.map_cons, hks, hid, hnext, List.range'_succ]
  · intro m hm
    rw [List.mem_singleton.1 hm]
    exact ⟨hoff.ge, hr'⟩
  · rw [Node.listingOf_singleton, Node.listing_eq] at he
    rcases List.mem_cons.1 he with rfl | he
    · refine ⟨hlen, hoff ▸ hstart, hstop, Text.isBoundary_le hstop, fun c hc => ⟨?_, hin c hc⟩,
        h.ordered, hkey⟩
      exact hoff.le.trans (hp.trans (h.bounds c hc).1)
    · exact h.fits _ e he

variable (ctx) in
/-- The node of one token. -/
theorem laid_atom (hp : On cs p) (hk : p.kind ≠ .eof) (a : Atom) :
    Laid cs p [(p.takeAtom ctx a).1] (p.takeAtom ctx a).2 := by
  have hlt := hp.start_lt_stop hk
  have hstop : (p.takeAtom ctx a).1.stop = p.stop := Mark.stop_sub hlt.le
  refine Laid.node (Laid.nil (p := p.fresh.2) (q := p.fresh.2) rfl) rfl rfl rfl le_rfl
    (Nat.sub_pos_of_lt hlt) hp.current.start_boundary ?_ (by simp [takeAtom, Node.children])
    (by simp [takeAtom, Node.key?]) (advance_nextId ..) ?_
  · rw [hstop]; exact hp.current.stop_boundary
  · rw [hstop]; exact hp.fresh.stop_le_advance hk

variable (ctx) in
/-- A container reaches from its opening to the token after its content. -/
theorem close_spec (hq : On cs q) {start : Nat} (hs : start < q.start) (id : Nat) {closer : TokenKind}
    (hc : closer ≠ .eof) (problem : Problem) :
    (q.close ctx id start closer problem).1.id = id ∧
    (q.close ctx id start closer problem).1.offset = start ∧
    0 < (q.close ctx id start closer problem).1.length ∧
    Text.isBoundary cs (q.close ctx id start closer problem).1.stop = true ∧
    q.start ≤ (q.close ctx id start closer problem).1.stop ∧
    (q.close ctx id start closer problem).1.stop ≤ (q.close ctx id start closer problem).2.start := by
  unfold close
  split
  · next hk =>
    have hk' : q.kind ≠ .eof := hk ▸ hc
    have hlt := hq.start_lt_stop hk'
    rw [Mark.stop_sub (hs.trans hlt).le]
    exact ⟨rfl, rfl, Nat.sub_pos_of_lt (hs.trans hlt), hq.current.stop_boundary, hlt.le,
      hq.stop_le_advance hk'⟩
  · dsimp only
    rw [blame_start, Mark.stop_sub hs.le]
    exact ⟨rfl, rfl, Nat.sub_pos_of_lt hs, hq.current.start_boundary, le_rfl, le_rfl⟩

/-- A container around its elements. -/
theorem laid_container {n : Node} {closer : TokenKind} {problem : Problem} (hp : On cs p)
    (hk : p.kind ≠ .eof) (hc : closer ≠ .eof) (h : Laid cs (p.fresh.2.advance ctx) n.children q)
    (ha : Ahead cs (p.fresh.2.advance ctx) q)
    (hmark : n.mark = (q.close ctx p.nextId p.start closer problem).1) (hkey : n.key? = none) :
    Laid cs p [n] (q.close ctx p.nextId p.start closer problem).2 := by
  have hlt : p.start < (p.fresh.2.advance ctx).start :=
    (hp.start_lt_stop hk).trans_le (hp.fresh.stop_le_advance hk)
  obtain ⟨h1, h2, h3, h4, h5, h6⟩ :=
    close_spec ctx ha.on (hlt.trans_le ha.start_le) p.nextId hc problem
  rw [← hmark] at h1 h2 h3 h4 h5 h6
  exact h.node h1 (advance_nextId ..) h2 hlt.le h3 hp.current.start_boundary h4
    (fun c hc => (h.bounds c hc).2.trans h5) (by simp [hkey]) (close_nextId ..) h6

variable (ctx) in
theorem stop_le_passKey (hp : On cs p) (hk : p.kind ≠ .eof) (rep : Bool) :
    p.stop ≤ (p.passKey ctx rep).start := by
  have h : p.stop ≤ (p.fresh.2.fresh.2.advance ctx).start := hp.fresh.fresh.stop_le_advance hk
  unfold passKey
  dsimp only
  split
  · rw [report_start]; exact h
  · exact h

theorem keyNode_stop (hp : On cs p) (hk : p.kind ≠ .eof) (key : Text) :
    (p.keyNode key).stop = p.stop := Mark.stop_sub (hp.start_lt_stop hk).le

variable (ctx) in
/-- The key of a property. -/
theorem laid_key (hp : On cs p) (hk : p.kind ≠ .eof) (key : Text) (rep : Bool) :
    Laid cs p.fresh.2 [p.keyNode key] (p.passKey ctx rep) := by
  have hlt := hp.start_lt_stop hk
  have hstop := keyNode_stop hp hk key
  refine Laid.node (Laid.nil (p := p.fresh.2.fresh.2) (q := p.fresh.2.fresh.2) rfl) rfl rfl rfl le_rfl
    (Nat.sub_pos_of_lt hlt) hp.current.start_boundary ?_ (by simp [keyNode, Node.children])
    (by simp [keyNode, Node.key?]) (passKey_nextId rep) ?_
  · rw [hstop]; exact hp.current.stop_boundary
  · rw [hstop]; exact stop_le_passKey ctx hp hk rep

/-- A property without a value. -/
theorem laid_hole {rep : Bool} (hp : On cs p) (hk : p.kind ≠ .eof) {stop : Nat} (hstop : p.stop ≤ stop)
    (hb : Text.isBoundary cs stop = true) (hr : stop ≤ r.start)
    (hn : r.nextId = (p.passKey ctx rep).nextId) (colon : Option Nat) (key : Text) :
    Laid cs p [.hole ⟨p.nextId, p.start, stop - p.start⟩ colon (p.keyNode key)] r := by
  have hlt := (hp.start_lt_stop hk).trans_le hstop
  have he : (Node.hole ⟨p.nextId, p.start, stop - p.start⟩ colon (p.keyNode key)).stop = stop :=
    Mark.stop_sub hlt.le
  refine Laid.node (laid_key ctx hp hk key rep) rfl rfl rfl le_rfl (Nat.sub_pos_of_lt hlt)
    hp.current.start_boundary (by rw [he]; exact hb) ?_ ?_ hn (by rw [he]; exact hr)
  · intro c hc
    rw [List.mem_singleton.1 hc, keyNode_stop hp hk, he]
    exact hstop
  · rintro k ⟨⟩
    exact ⟨_, _, rfl⟩

/-- A property with its value. -/
theorem laid_property {rep : Bool} {v : Node} (hp : On cs p) (hk : p.kind ≠ .eof)
    (h : Laid cs ((p.passKey ctx rep).passColon ctx) [v] q)
    (ha : Ahead cs ((p.passKey ctx rep).passColon ctx) q) (colon : Option Nat) (key : Text) :
    Laid cs p [.property ⟨p.nextId, p.start, v.stop - p.start⟩ colon (p.keyNode key) v] q := by
  have hak := (goes_passKey ctx p hk rep).ahead hp
  have hac := (goes_passColon ctx _).ahead hak.on
  obtain ⟨hv, hvq⟩ := h.bounds v (List.mem_singleton_self v)
  have hfits := h.fits none (none, v) (by
    rw [Node.listingOf_singleton, Node.listing_eq]
    exact List.mem_cons_self ..)
  have hvlen : v.offset < v.stop := Nat.lt_add_of_pos_right hfits.length_pos
  have hkv : p.stop ≤ v.offset := ((stop_le_passKey ctx hp hk rep).trans hac.start_le).trans hv
  have hlt : p.start < v.stop := ((hp.start_lt_stop hk).trans_le hkv).trans hvlen
  have hboth := (laid_key ctx hp hk key rep).cons (h.startFrom passColon_nextId hac)
    ⟨hak.on, hak.start_le⟩ (hac.trans ha)
  have he :
      (Node.property ⟨p.nextId, p.start, v.stop - p.start⟩ colon (p.keyNode key) v).stop = v.stop :=
    Mark.stop_sub hlt.le
  refine Laid.node hboth rfl rfl rfl le_rfl (Nat.sub_pos_of_lt hlt) hp.current.start_boundary
    (by rw [he]; exact hfits.stop_boundary) ?_ ?_ rfl (by rw [he]; exact hvq)
  · intro c hc
    rw [he]
    rcases List.mem_cons.1 hc with rfl | hc
    · rw [keyNode_stop hp hk]
      exact hkv.trans hvlen.le
    · rw [List.mem_singleton.1 hc]
  · rintro k ⟨⟩
    exact ⟨_, _, rfl⟩

/-- The end of a property without a value: after the colon, if there is one, or after
    the key. -/
theorem holeStop_spec (hp : On cs p) (hk : p.kind ≠ .eof) (rep : Bool) :
    p.stop ≤ (p.passKey ctx rep).holeStop p.stop ∧
    Text.isBoundary cs ((p.passKey ctx rep).holeStop p.stop) = true ∧
    (p.passKey ctx rep).holeStop p.stop ≤ ((p.passKey ctx rep).passColon ctx).start := by
  have hq := ((goes_passKey ctx p hk rep).ahead hp).on
  have hle := stop_le_passKey ctx hp hk rep
  unfold holeStop colon? passColon
  split_ifs with hc
  · have hlast : (p.passKey ctx rep).start + 1 = (p.passKey ctx rep).stop :=
      (hq.current.mark (Or.inr hc)).symm
    dsimp only
    rw [hlast]
    exact ⟨by omega, hq.current.stop_boundary, hq.stop_le_advance (by rw [hc]; simp)⟩
  · exact ⟨le_rfl, hp.current.stop_boundary, by rw [blame_start]; exact hle⟩

/-- **Every reading is laid out.** -/
theorem Reads.laid {task : Task} {out : List Node} (h : Reads ctx task p out q) (hp : On cs p) :
    Laid cs p out q := by
  induction h with
  | @object p ns q hk h ih =>
    have hk' : p.kind ≠ .eof := by rw [hk]; simp
    have ho := (goes_open ctx p hk').ahead hp
    exact laid_container hp hk' (by simp) (ih ho.on) (h.ahead ho.on) rfl rfl
  | @array p ns q hk h ih =>
    have hk' : p.kind ≠ .eof := by rw [hk]; simp
    have ho := (goes_open ctx p hk').ahead hp
    exact laid_container hp hk' (by simp) (ih ho.on) (h.ahead ho.on) rfl rfl
  | @atom p a q h =>
    obtain ⟨hv, rfl | rfl⟩ := atom?_spec h
    · exact laid_atom ctx hp (startsValue_ne_eof hv) a
    · have hb := (goes_blame ctx p .numberFormat).ahead hp
      exact (laid_atom ctx hb.on (by simpa using startsValue_ne_eof hv) a).startFrom (by simp) hb
  | noValue _ | itemsEnd _ | membersEnd _ => exact .nil rfl
  | itemsTrailing _ _ | membersTrailing _ _ => exact .nil (by simp)
  | @item b _ _ _ _ _ _ h₁ h₂ ih₁ ih₂ =>
    have hs := (goes_separate ctx _ b .valueExpected).ahead hp
    have hq := h₁.ahead hs.on
    exact ((ih₁ hs.on).startFrom (by simp) hs).cons (ih₂ hq.on) (hs.trans hq) (h₂.ahead hq.on)
  | @noItem b _ _ _ _ _ _ ih =>
    have hs := (goes_separate ctx _ b .valueExpected).ahead hp
    have hr := hs.trans ((goes_recover ctx _ .valueExpected [.closeBracket, .comma]).ahead hs.on)
    exact (ih hr.on).startFrom (by simp) hr
  | leftover _ _ _ _ _ ih =>
    have hr := (goes_recover ctx _ .braceExpected [.closeBrace, .comma]).ahead hp
    exact (ih hr.on).startFrom (by simp) hr
  | @member _ b _ _ _ _ _ _ _ _ _ hkey h₁ h₂ ih₁ ih₂ =>
    have hs := (goes_separate ctx _ b .propertyExpected).ahead hp
    have hk := hs.trans ((goes_key? hkey).ahead hs.on)
    have hq := h₁.ahead hk.on
    have hid := (key?_nextId hkey).trans (separate_nextId ..)
    exact ((ih₁ hk.on).startFrom hid hk).cons (ih₂ hq.on) (hk.trans hq) (h₂.ahead hq.on)
  | @noMember _ b _ _ _ _ _ _ _ ih =>
    have hs := (goes_separate ctx _ b .propertyExpected).ahead hp
    have hr := hs.trans ((goes_recover ctx _ .propertyExpected [.closeBrace, .comma]).ahead hs.on)
    exact (ih hr.on).startFrom (by simp) hr
  | @nextLine key rep p hk hn =>
    have hcolon : ((p.passKey ctx rep).passColon ctx).start = (p.passKey ctx rep).start := by
      rw [passColon, if_neg hn.1, blame_start]
    exact laid_hole hp hk le_rfl hp.current.stop_boundary
      (by rw [hcolon]; exact stop_le_passKey ctx hp hk rep) passColon_nextId none key
  | @valued _ rep _ _ _ hk _ h ih =>
    have hk' := (goes_passKey ctx _ hk rep).ahead hp
    have hc := (goes_passColon ctx _).ahead hk'.on
    exact laid_property hp hk (ih hc.on) (h.ahead hc.on) _ _
  | @valueless _ rep _ hk _ _ =>
    have hk' := (goes_passKey ctx _ hk rep).ahead hp
    have hc := (goes_passColon ctx _).ahead hk'.on
    obtain ⟨h1, h2, h3⟩ := holeStop_spec hp hk rep
    exact laid_hole hp hk h1 h2 (h3.trans ((goes_passNoValue ctx _).ahead hc.on).start_le)
      (passNoValue_nextId.trans passColon_nextId) _ _

end Cursor

namespace Node

/-! ## Owners -/

theorem sizeOf_lt_of_mem_children {n c : Node} (h : c ∈ n.children) : sizeOf c < sizeOf n := by
  cases n with
  | atom => cases h
  | array m items | object m items =>
    have := List.sizeOf_lt_of_mem (show c ∈ items from h)
    simp only [array.sizeOf_spec, object.sizeOf_spec]
    omega
  | property m colon key value =>
    rcases List.mem_cons.1 h with rfl | h
    · simp only [property.sizeOf_spec]; omega
    · rw [List.mem_singleton.1 h]
      simp only [property.sizeOf_spec]; omega
  | hole m colon key =>
    rw [List.mem_singleton.1 h]
    simp only [hole.sizeOf_spec]; omega

/-- Induction over a tree: what holds of a node if it holds of its children. -/
theorem induction_on {P : Node → Prop} (n : Node)
    (h : ∀ n : Node, (∀ c ∈ n.children, P c) → P n) : P n :=
  h n fun c hc =>
    have := sizeOf_lt_of_mem_children hc
    induction_on c h
termination_by sizeOf n

theorem mem_listingOf {parent : Option Nat} {ns : List Node} {e : Option Nat × Node} :
    e ∈ listingOf parent ns ↔ ∃ n ∈ ns, e ∈ n.listing parent := by
  induction ns with
  | nil => simp [listingOf]
  | cons n ns ih => simp [listingOf_cons, ih]

theorem listing_sublist_listingOf {parent : Option Nat} {ns : List Node} {n : Node} (h : n ∈ ns) :
    (n.listing parent).Sublist (listingOf parent ns) := by
  induction ns with
  | nil => cases h
  | cons m ns ih =>
    rw [listingOf_cons]
    rcases List.mem_cons.1 h with rfl | h
    · exact List.sublist_append_left _ _
    · exact (ih h).trans (List.sublist_append_right _ _)

theorem mem_listing_self (parent : Option Nat) (n : Node) : (parent, n) ∈ n.listing parent := by
  rw [listing_eq]
  exact List.mem_cons_self ..

/-- What is listed under a node that is listed is listed. -/
theorem listing_sublist {parent : Option Nat} {n : Node} {e : Option Nat × Node}
    (h : e ∈ n.listing parent) : (e.2.listing e.1).Sublist (n.listing parent) := by
  induction n using induction_on generalizing parent with
  | h n ih =>
    rw [listing_eq] at h
    rcases List.mem_cons.1 h with rfl | h
    · exact List.Sublist.refl _
    · obtain ⟨c, hc, he⟩ := mem_listingOf.1 h
      rw [listing_eq parent n]
      exact ((ih c hc he).trans (listing_sublist_listingOf hc)).cons _

/-- What is listed under a child is listed under the node. -/
theorem mem_listing_of_mem_child {parent : Option Nat} {n c : Node} {e : Option Nat × Node}
    (hc : c ∈ n.children) (he : e ∈ c.listing (some n.id)) : e ∈ n.listing parent := by
  rw [listing_eq]
  exact List.mem_cons_of_mem _ (mem_listingOf.2 ⟨c, hc, he⟩)

/-- A node is listed with the node above it. -/
theorem exists_owner {parent : Option Nat} {n : Node} {e : Option Nat × Node}
    (h : e ∈ n.listing parent) :
    e = (parent, n) ∨ ∃ o ∈ n.listing parent, e.1 = some o.2.id ∧ e.2 ∈ o.2.children := by
  induction n using induction_on generalizing parent with
  | h n ih =>
    rw [listing_eq] at h
    rcases List.mem_cons.1 h with rfl | h
    · exact Or.inl rfl
    obtain ⟨c, hc, he⟩ := mem_listingOf.1 h
    rcases ih c hc he with rfl | ⟨o, ho, h1, h2⟩
    · exact Or.inr ⟨(parent, n), mem_listing_self parent n, rfl, hc⟩
    · exact Or.inr ⟨o, mem_listing_of_mem_child hc ho, h1, h2⟩

/-- What is listed under a node lies in it, if all of it fits a text. -/
theorem within_of_fits {cs : Text} {parent : Option Nat} {n : Node} {e : Option Nat × Node}
    (h : ∀ e ∈ n.listing parent, e.2.Fits cs) (he : e ∈ n.listing parent) :
    n.offset ≤ e.2.offset ∧ e.2.stop ≤ n.stop := by
  induction n using induction_on generalizing parent with
  | h n ih =>
    have hn := h _ (mem_listing_self parent n)
    rw [listing_eq] at he
    rcases List.mem_cons.1 he with rfl | he
    · exact ⟨le_rfl, le_rfl⟩
    · obtain ⟨c, hc, he⟩ := mem_listingOf.1 he
      obtain ⟨h1, h2⟩ := hn.nested c hc
      obtain ⟨h3, h4⟩ := ih c hc (fun x hx => h x (mem_listing_of_mem_child hc hx)) he
      exact ⟨h1.trans h3, h4.trans h2⟩

/-- The children of a node that is listed are listed under its number. -/
theorem mem_listing_of_child {parent : Option Nat} {n c : Node} {o : Option Nat × Node}
    (ho : o ∈ n.listing parent) (hc : c ∈ o.2.children) : (some o.2.id, c) ∈ n.listing parent := by
  refine (listing_sublist ho).subset ?_
  rw [listing_eq]
  exact List.mem_cons_of_mem _ (mem_listingOf.2 ⟨c, hc, mem_listing_self _ c⟩)

theorem children_ids_sublist (parent : Option Nat) (ns : List Node) :
    (ns.map id).Sublist ((listingOf parent ns).map (·.2.id)) := by
  induction ns with
  | nil => exact List.Sublist.refl _
  | cons n ns ih =>
    rw [listingOf_cons, listing_eq, List.map_append, List.map_cons, List.map_cons, List.cons_append]
    exact (ih.trans (List.sublist_append_right _ _)).cons_cons _

section
variable {n : Node} (hids : ((n.listing none).map (·.2.id)).Nodup)

include hids

theorem eq_of_id_eq {e o : Option Nat × Node} (he : e ∈ n.listing none) (ho : o ∈ n.listing none)
    (h : e.2.id = o.2.id) : e = o :=
  List.inj_on_of_nodup_map hids he ho h

/-- In a tree whose numbers are distinct, every node but the root is the child of one node, its
    recorded parent. -/
theorem exists_one_owner {e : Option Nat × Node} (he : e ∈ n.listing none) (hne : e ≠ (none, n)) :
    ∃ o ∈ n.listing none, e.1 = some o.2.id ∧ e.2 ∈ o.2.children ∧
      (o.2.children.map id).count e.2.id = 1 ∧
      ∀ o' ∈ n.listing none, e.2.id ∈ o'.2.children.map id → o' = o := by
  obtain ⟨o, ho, h1, h2⟩ := (exists_owner he).resolve_left hne
  have hbelow : ((o.2.listing o.1).map (·.2.id)).Nodup := hids.sublist ((listing_sublist ho).map _)
  rw [listing_eq, List.map_cons, List.nodup_cons] at hbelow
  have hchildren : (o.2.children.map id).Nodup := hbelow.2.sublist (children_ids_sublist _ _)
  refine ⟨o, ho, h1, h2, List.count_eq_one_of_mem hchildren (List.mem_map_of_mem h2), ?_⟩
  intro o' ho' hmem
  obtain ⟨c, hc, hce⟩ := List.mem_map.1 hmem
  have heq := eq_of_id_eq hids (mem_listing_of_child ho' hc) he hce
  rw [← heq, Option.some_inj] at h1
  exact eq_of_id_eq hids ho' ho h1

end

section
variable {n : Node} (hids : ((n.listing none).map (·.2.id)).Pairwise (· < ·))

include hids

/-- In a tree numbered in text order, the numbers of the children come after the number of
    the node. -/
theorem id_lt_of_child {o : Option Nat × Node} (ho : o ∈ n.listing none) {c : Node}
    (hc : c ∈ o.2.children) : o.2.id < c.id := by
  have h := hids.sublist ((listing_sublist ho).map _)
  rw [listing_eq, List.map_cons, List.pairwise_cons] at h
  exact h.1 c.id ((children_ids_sublist _ _).subset (List.mem_map_of_mem hc))

/-- **Every node but the root is the child of one node, its recorded parent.** -/
theorem owned_once {e : Option Nat × Node} (he : e ∈ n.listing none) (hne : e ≠ (none, n)) :
    ∃ o ∈ n.listing none, e.1 = some o.2.id ∧ o.2.id < e.2.id ∧
      (o.2.children.map id).count e.2.id = 1 ∧
      ∀ o' ∈ n.listing none, e.2.id ∈ o'.2.children.map id → o' = o := by
  obtain ⟨o, ho, h1, h2, hone⟩ := exists_one_owner (hids.imp fun h => h.ne) he hne
  exact ⟨o, ho, h1, id_lt_of_child hids ho h2, hone⟩

end

end Node

namespace Literal

open Cursor

/-! ## Whole texts -/

/-- The nodes of a literal in the order of their numbers, each with the number of the node
    above it. -/
def arena (d : Literal) : List (Option Nat × Node) := (d.root.map (·.listing none)).getD []

/-- A tree with nested, ordered extents, and errors and comments within the text. -/
structure WellFormed (cs : Text) (d : Literal) : Prop where
  empty_iff : d.arena = [] ↔ d.root = none
  root : ∀ r ∈ d.root, r.id = 0 ∧ (none, r) ∈ d.arena
  numbered : d.arena.map (·.2.id) = List.range d.count
  /-- Every node but the root is listed once, under its recorded parent and nowhere else. -/
  owned : ∀ e ∈ d.arena, e.2.id ≠ 0 → ∃ o ∈ d.arena, e.1 = some o.2.id ∧ o.2.id < e.2.id ∧
    (o.2.children.map Node.id).count e.2.id = 1 ∧
    ∀ o' ∈ d.arena, e.2.id ∈ o'.2.children.map Node.id → o' = o
  fits : ∀ e ∈ d.arena, e.2.Fits cs
  errors : ∀ e ∈ d.errors, e.span.stop ≤ Text.bytes cs ∧
    (e.span.start < e.span.stop ∨ cs = [] ∧ e.span.start = e.span.stop)
  comments : ∀ s ∈ d.comments, s.stop ≤ Text.bytes cs ∧ s.start < s.stop

section
variable (cs : Text) (allow : Bool)

theorem scan_placed : ∀ t ∈ Token.scan cs, t.Placed cs := (Token.scans_scan cs).placed

theorem opening_on : On cs (opening (context cs allow) (Token.scan cs)) := by
  obtain ⟨ds, hd, -, hr⟩ := opening_stream (context cs allow) (Token.scans_scan cs).ended
  have hs : (opening (context cs allow) (Token.scan cs)).stream <:+ Token.scan cs := ⟨ds, hd.symm⟩
  exact ⟨hr, (Token.scans_scan cs).ordered.sublist hs.sublist,
    fun t ht => scan_placed cs t (hs.subset ht)⟩

theorem opening_subset : (opening (context cs allow) (Token.scan cs)).stream ⊆ Token.scan cs := by
  obtain ⟨ds, hd, -, -⟩ := opening_stream (context cs allow) (Token.scans_scan cs).ended
  intro t ht
  rw [hd]
  exact List.mem_append_right _ ht

theorem opening_nextId (ctx : ParseContext) (tokens : List Token) : (opening ctx tokens).nextId = 0 :=
  draw_nextId ..

end

theorem moves_closing {ctx : ParseContext} {all : List Token} {q : Cursor} (ha : q.stream ⊆ all)
    (out : List Node) : Moves ctx all q (closing ctx out q) := by
  unfold closing
  split_ifs
  · exact moves_blame ha _
  · exact moves_blame ha _
  · exact .refl

theorem closing_nextId {ctx : ParseContext} {out : List Node} {q : Cursor} :
    (closing ctx out q).nextId = q.nextId := by
  unfold closing
  split_ifs <;> simp

/-- A value is at most one node. -/
theorem value_cases {ctx : ParseContext} {p q : Cursor} {out : List Node}
    (h : Reads ctx .value p out q) : out = [] ∨ ∃ n, out = [n] := by
  cases h with
  | noValue _ => exact Or.inl rfl
  | _ => exact Or.inr ⟨_, rfl⟩

section
variable {cs : Text} {allow : Bool} {out : List Node} {q : Cursor}
  (h : Reads (context cs allow) .value (opening (context cs allow) (Token.scan cs)) out q)

include h

theorem arena_ofReading :
    (ofReading (context cs allow) out q).arena = Node.listingOf none out := by
  rcases value_cases h with rfl | ⟨n, rfl⟩
  · rfl
  · exact (Node.listingOf_singleton none n).symm

theorem numbered_ofReading : (ofReading (context cs allow) out q).arena.map (·.2.id) =
    List.range (ofReading (context cs allow) out q).count := by
  obtain ⟨k, hk, hids⟩ := (h.laid (opening_on cs allow)).numbered
  rw [opening_nextId, Nat.zero_add] at hk
  have hcount : (ofReading (context cs allow) out q).count = k := closing_nextId.trans hk
  rw [arena_ofReading h, hids, hcount, opening_nextId, List.range_eq_range']

theorem errors_ofReading {e : SyntaxError} (he : e ∈ (ofReading (context cs allow) out q).errors) :
    Place (context cs allow) (Token.scan cs) e.span := by
  have hf : ∀ t ∈ Token.scan cs, t.kind = .eof → t.fault = none :=
    fun t ht hk => ((scan_placed cs t ht).eof hk).2.2
  have hr := (opening_on cs allow).toReady
  have hm := h.moves hr (opening_subset cs allow)
  have hmc := hm.trans (moves_closing (hm.subset hr (opening_subset cs allow)) out)
  rcases hmc.errors_place hr (opening_subset cs allow) hf he with he | he
  · exact (draw_errors_place (List.Subset.refl _) hf false he).resolve_left List.not_mem_nil
  · exact he

theorem comments_ofReading {s : Span} (hs : s ∈ (ofReading (context cs allow) out q).comments) :
    ∃ t ∈ Token.scan cs, t.kind.isComment = true ∧ s = t.span := by
  have hr := (opening_on cs allow).toReady
  have hm := h.moves hr (opening_subset cs allow)
  have hmc := hm.trans (moves_closing (hm.subset hr (opening_subset cs allow)) out)
  rcases hmc.comments_place hr (opening_subset cs allow) hs with hs | hs
  · exact (draw_comments_place (List.Subset.refl _) false hs).resolve_left List.not_mem_nil
  · exact hs

end

section
variable (cs : Text) (allow : Bool)

/-- The nodes of a literal are numbered in text order. -/
theorem parse_ids : (parse cs allow).arena.map (·.2.id) = List.range (parse cs allow).count := by
  obtain ⟨out, q, h, he⟩ := parse_eq cs allow
  rw [he]
  exact numbered_ofReading h

/-- The nodes of a literal fit its text. -/
theorem parse_fits : ∀ e ∈ (parse cs allow).arena, e.2.Fits cs := by
  obtain ⟨out, q, h, he⟩ := parse_eq cs allow
  rw [he, arena_ofReading h]
  exact (h.laid (opening_on cs allow)).fits none

end

/-- **Every text has a well-formed literal.** -/
theorem parse_wellFormed (cs : Text) (allow : Bool) : WellFormed cs (parse cs allow) := by
  obtain ⟨out, q, h, he⟩ := parse_eq cs allow
  rw [he]
  have hids := numbered_ofReading h
  have hfits := (h.laid (opening_on cs allow)).fits none
  rw [← arena_ofReading h] at hfits
  have hroot : ∀ r ∈ (ofReading (context cs allow) out q).root, r.id = 0 ∧
      (ofReading (context cs allow) out q).arena = r.listing none := by
    intro r hr
    have ha : (ofReading (context cs allow) out q).arena = r.listing none := by
      simp only [arena, Option.mem_def.1 hr, Option.map_some, Option.getD_some]
    refine ⟨?_, ha⟩
    have := congrArg List.head? hids
    rw [ha, Node.listing_eq, List.map_cons, List.head?_cons, List.head?_range] at this
    split at this
    · cases this
    · exact Option.some.inj this
  refine ⟨?_, fun r hr => ?_, hids, fun e he hne => ?_, hfits, fun e he => ?_, fun s hs => ?_⟩
  · rcases value_cases h with rfl | ⟨n, rfl⟩
    · exact ⟨fun _ => rfl, fun _ => rfl⟩
    · simp [ofReading, arena, Node.listing_eq]
  · exact ⟨(hroot r hr).1, (hroot r hr).2 ▸ Node.mem_listing_self none r⟩
  · cases hr : (ofReading (context cs allow) out q).root with
    | none => simp [arena, hr] at he
    | some r =>
      obtain ⟨h0, ha⟩ := hroot r hr
      rw [ha] at he hids ⊢
      refine Node.owned_once (hids ▸ List.pairwise_lt_range) he fun heq => hne ?_
      rw [heq]
      exact h0
  · exact (errors_ofReading h he).within (scan_placed cs) rfl
  · obtain ⟨t, ht, hk, rfl⟩ := comments_ofReading h hs
    have hp := scan_placed cs t ht
    exact ⟨hp.stop_le, hp.start_lt_stop fun hk' => by rw [hk'] at hk; cases hk⟩

end Literal

end AnnotatedJson
