/-
  Where the nodes of a literal come from.

  A node is a property, a key or a value.  A value below a reading was read on its own, from a cursor
  with no other tokens than the reading had.

  * `Cursor.Origin`: how a node was read;
  * `Reads.origin`: every node below a reading that is no property has an origin;
  * `Reads.value_offset`: a value starts where its reading does, and `Reads.atom_span`: a value of one
    token covers the token.
-/
import Mathlib
import AnnotatedJson.Proofs.Paths

namespace AnnotatedJson

namespace Cursor

variable {ctx : ParseContext} {p q : Cursor} {m : Node}

/-- How a node came about: as a key, or read as a value from a later cursor. -/
inductive Origin (ctx : ParseContext) (p : Cursor) (m : Node) : Prop
  | key {mark s} : m = .atom mark (.string s) → Origin ctx p m
  | value {p' q'} : Reads ctx .value p' [m] q' → Ready p' → p'.stream <:+ p.stream → Origin ctx p m

theorem Origin.earlier (h : Origin ctx q m) (hs : q.stream <:+ p.stream) : Origin ctx p m := by
  cases h with
  | key hm => exact .key hm
  | value h hr hq => exact .value h hr (hq.trans hs)

/-- The origins of the nodes below a node that was read from a cursor. -/
def Traced (ctx : ParseContext) (p : Cursor) (n : Node) : Prop :=
  ∀ m, n.Above m → m.isProperty = false → Origin ctx p m

theorem Traced.earlier {n : Node} (h : Traced ctx q n) (hs : q.stream <:+ p.stream) :
    Traced ctx p n := fun m hm hp => (h m hm hp).earlier hs

theorem traced_node {n : Node} (hn : n.isProperty = false → Origin ctx p n)
    (hc : ∀ c ∈ n.children, Traced ctx p c) : Traced ctx p n :=
  Node.forall_above_iff.2 ⟨hn, hc⟩

theorem traced_key (p' : Cursor) (key : Text) : Traced ctx p (p'.keyNode key) :=
  traced_node (fun _ => .key rfl) (by simp [keyNode, Node.children])

/-- A container was read as a value, and its children after its opening token. -/
theorem traced_container {n : Node} (h : Reads ctx .value p [n] q) (hp : Ready p) (hk : p.kind ≠ .eof)
    (hc : Ready (p.fresh.2.advance ctx) →
      ∀ c ∈ n.children, Traced ctx (p.fresh.2.advance ctx) c) : ∀ m ∈ [n], Traced ctx p m := by
  have hopen := (goes_open ctx p hk).suffix hp
  refine List.forall_mem_singleton.2 (traced_node (fun _ => ?_) fun c hmem => ?_)
  · exact .value h hp (List.suffix_refl _)
  · exact (hc hopen.2 c hmem).earlier hopen.1

/-- **Every node below a reading has an origin.** -/
theorem Reads.origin {task : Task} {out : List Node} (h : Reads ctx task p out q) (hp : Ready p) :
    ∀ n ∈ out, Traced ctx p n := by
  induction h with
  | object hk h ih => exact traced_container (.object hk h) hp (by rw [hk]; simp) ih
  | array hk h ih => exact traced_container (.array hk h) hp (by rw [hk]; simp) ih
  | atom h =>
    refine List.forall_mem_singleton.2 (traced_node (fun _ => ?_) (by simp [takeAtom, Node.children]))
    exact .value (.atom h) hp (List.suffix_refl _)
  | noValue | itemsEnd | itemsTrailing | membersEnd | membersTrailing => simp
  | @item b _ _ _ _ _ _ h₁ _ ih₁ ih₂ =>
    have hs := (goes_separate ctx _ b .valueExpected).suffix hp
    have hq := (h₁.goes hs.2).suffix hs.2
    refine List.forall_mem_cons.2 ⟨(ih₁ hs.2 _ List.mem_cons_self).earlier hs.1, fun n hn => ?_⟩
    exact (ih₂ hq.2 n hn).earlier (hq.1.trans hs.1)
  | @noItem b _ _ _ _ _ _ ih =>
    have hs := (goes_separate ctx _ b .valueExpected).suffix hp
    have hr := (goes_recover ctx _ .valueExpected [.closeBracket, .comma]).suffix hs.2
    exact fun n hn => (ih hr.2 n hn).earlier (hr.1.trans hs.1)
  | leftover _ _ _ _ _ ih =>
    have hr := (goes_recover ctx _ .braceExpected [.closeBrace, .comma]).suffix hp
    exact fun n hn => (ih hr.2 n hn).earlier hr.1
  | @member _ b _ _ _ _ _ _ _ _ _ hkey h₁ _ ih₁ ih₂ =>
    have hs := (goes_separate ctx _ b .propertyExpected).suffix hp
    have hk := (goes_key? hkey).suffix hs.2
    have hq := (h₁.goes hk.2).suffix hk.2
    refine List.forall_mem_cons.2
      ⟨(ih₁ hk.2 _ List.mem_cons_self).earlier (hk.1.trans hs.1), fun n hn => ?_⟩
    exact (ih₂ hq.2 n hn).earlier (hq.1.trans (hk.1.trans hs.1))
  | @noMember _ b _ _ _ _ _ _ _ ih =>
    have hs := (goes_separate ctx _ b .propertyExpected).suffix hp
    have hr := (goes_recover ctx _ .propertyExpected [.closeBrace, .comma]).suffix hs.2
    exact fun n hn => (ih hr.2 n hn).earlier (hr.1.trans hs.1)
  | nextLine | valueless =>
    refine List.forall_mem_singleton.2 (traced_node (fun h => by cases h) ?_)
    exact List.forall_mem_singleton.2 (traced_key _ _)
  | @valued _ rep _ _ _ hk _ _ ih =>
    have hkey := (goes_passKey ctx _ hk rep).suffix hp
    have hcolon := (goes_passColon ctx _).suffix hkey.2
    refine List.forall_mem_singleton.2 (traced_node (fun h => by cases h) ?_)
    refine List.forall_mem_cons.2 ⟨traced_key _ _, List.forall_mem_singleton.2 ?_⟩
    exact (ih hcolon.2 _ List.mem_cons_self).earlier (hcolon.1.trans hkey.1)

/-- A value starts where its reading does. -/
theorem Reads.value_offset {n : Node} (h : Reads ctx .value p [n] q) : n.offset = p.start := by
  cases h with
  | object hk _ | array hk _ =>
    unfold close
    split <;> rfl
  | atom h =>
    obtain ⟨-, rfl | rfl⟩ := atom?_spec h
    · rfl
    · exact blame_start ctx p _

/-- A value of one token covers the token. -/
theorem Reads.atom_span {mark : Mark} {a : Atom} (h : Reads ctx .value p [.atom mark a] q)
    (hle : p.start ≤ p.stop) : mark.span = p.current.span := by
  cases h with
  | atom h =>
    obtain ⟨-, rfl | rfl⟩ := atom?_spec h
    · exact congrArg (Span.mk _) (Mark.stop_sub hle)
    · have hle' : (p.blame ctx .numberFormat).start ≤ (p.blame ctx .numberFormat).stop := by
        rwa [blame_start, blame_stop]
      calc Mark.span _ = ⟨(p.blame ctx .numberFormat).start, (p.blame ctx .numberFormat).stop⟩ :=
            congrArg (Span.mk _) (Mark.stop_sub hle')
        _ = p.current.span := by rw [blame_start, blame_stop, start, stop]

end Cursor

namespace Literal

variable (cs : Text) (allow : Bool)

/-- Every node of a literal that is no property has an origin. -/
theorem parse_origin : ∀ e ∈ (parse cs allow).arena, e.2.isProperty = false →
    Cursor.Origin (context cs allow) (opening (context cs allow) (Token.scan cs)) e.2 := by
  intro e he
  obtain ⟨r, hr, habove⟩ := above_of_mem_arena he
  obtain ⟨out, q, h, hout⟩ := parse_eq cs allow
  rw [hout] at hr
  exact h.origin (opening_on cs allow).toReady r (List.mem_of_mem_head? hr) e.2 habove

end Literal

end AnnotatedJson
