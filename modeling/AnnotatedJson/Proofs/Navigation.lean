/-
  What it means for a schema to apply at the end of a path.

  `Applies` says it by rules, without a bound on how deep keywords nest;
  `AppliesWithin d` counts the nesting.  The walk along a path finds exactly the
  schemas that apply within its bound, each place once.

  * `Resolves`: the end of a chain of references;
  * `Applicator`: the schemas that a schema applies to the same value;
  * `Child`: the schemas that a schema applies one step further;
  * `Brings`, `BringsWithin`: what a schema brings with it at one value;
  * `mem_expandTo_iff`: expansion to a depth is `BringsWithin` that depth;
  * `mem_advance_iff`: one step of the walk;
  * `along_applies`: the walk along a path.
-/
import AnnotatedJson.Pattern.Reader
import AnnotatedJson.Proofs.Places
import AnnotatedJson.Schema.Navigate

namespace AnnotatedJson.Schema

/-! ## Chains of references -/

/-- The schema that a chain of `n` references leads to. -/
def hops? (root : Json) : Nat → Json → Option Json
  | 0, schema => some schema
  | n + 1, schema => (follow? root schema).bind fun l => hops? root n l.value

/-- No chain of references inside the root schema is longer than the longest
    that is followed. -/
def ShortChains (root : Json) : Prop := ∀ v ∈ root.inner, hops? root (maxDepth + 1) v = none

instance (root : Json) : Decidable (ShortChains root) :=
  inferInstanceAs (Decidable (∀ v ∈ root.inner, hops? root (maxDepth + 1) v = none))

/-- `t` is the last target of the chain of references that starts at `l`. -/
inductive Resolves (root : Json) : Located → Located → Prop
  | last {l : Located} (h : follow? root l.value = none) : Resolves root l l
  | hop {l m t : Located} (h : follow? root l.value = some m) (r : Resolves root m t) :
    Resolves root l t

variable {root : Json} {node : Option Node} {l m t c : Located}

theorem follow?_within (h : follow? root l.value = some m) : m.Within root := by
  obtain ⟨reference, _, hm⟩ := Option.bind_eq_some_iff.1 h
  unfold target? at hm
  split at hm
  · exact Json.locate?_within hm
  · cases hm

theorem Resolves.within (h : Resolves root l t) (hl : l.Within root) : t.Within root := by
  induction h with
  | last => exact hl
  | hop h _ ih => exact ih (follow?_within h)

theorem Resolves.unique {t' : Located} (h : Resolves root l t) (h' : Resolves root l t') :
    t = t' := by
  induction h with
  | last h =>
    cases h' with
    | last => rfl
    | hop h' => rw [h] at h'; cases h'
  | hop h _ ih =>
    cases h' with
    | last h' => rw [h] at h'; cases h'
    | hop h' r => rw [h] at h'; cases h'; exact ih r

theorem resolves_chase? (n : Nat) (l : Located) (h : hops? root (n + 1) l.value = none) :
    Resolves root l ((chase? root n l.value).getD l) := by
  induction n generalizing l with
  | zero =>
    refine .last (Option.eq_none_iff_forall_ne_some.2 fun m hm => ?_)
    rw [hops?, hm] at h
    cases h
  | succ n ih =>
    rw [hops?] at h
    rw [chase?]
    cases hf : follow? root l.value with
    | none => exact .last hf
    | some m =>
      rw [hf] at h
      exact .hop hf (ih m h)

theorem resolves_iff (hrefs : ShortChains root) (hl : l.Within root) :
    Resolves root l t ↔ t = resolve root l := by
  have h := resolves_chase? maxDepth l (hrefs _ hl.mem_inner)
  exact ⟨fun ht => ht.unique h, fun ht => ht ▸ h⟩

/-! ## Schemas for the same value -/

/-- `c` stands in the array that `l` has under a keyword. -/
def Lists (l : Located) (keyword : String) (c : Located) : Prop :=
  ∃ i, (l.member? keyword).bind (·.item? i) = some c

/-- `c` is an alternative under a keyword of `l` that fits the node; any
    alternative, if none fits or there is no node. -/
def Offers (root : Json) (node : Option Node) (l : Located) (keyword : String) (c : Located) : Prop :=
  Lists l keyword c ∧ ∀ n, node = some n →
    fits root c.value n = true ∨ ∀ d, Lists l keyword d → fits root d.value n = false

/-- `l` applies `c` to the same value as itself. -/
inductive Applicator (root : Json) (node : Option Node) (l c : Located) : Prop
  | allOf (h : Lists l "allOf" c)
  | anyOf (h : Offers root node l "anyOf" c)
  | oneOf (h : Offers root node l "oneOf" c)
  | consequence {condition : Located} {n : Node} (hif : l.member? "if" = some condition)
    (hn : node = some n) (hc : fits root condition.value n = true)
    (h : l.member? "then" = some c)
  | alternative {condition : Located} {n : Node} (hif : l.member? "if" = some condition)
    (hn : node = some n) (hc : fits root condition.value n = false)
    (h : l.member? "else" = some c)

theorem mem_listed_iff {keyword : String} : c ∈ listed l keyword ↔ Lists l keyword c := by
  unfold listed Lists
  cases l.member? keyword with
  | none => simp
  | some a => simpa using Located.mem_items?_iff

theorem mem_chosen_iff {keyword : String} :
    c ∈ chosen root node (listed l keyword) ↔ Offers root node l keyword c := by
  unfold chosen Offers
  cases node with
  | none => simp [mem_listed_iff]
  | some n =>
    have hempty : ((listed l keyword).filter fun a => fits root a.value n).isEmpty = true ↔
        ∀ d, Lists l keyword d → fits root d.value n = false := by
      simp [List.isEmpty_iff, List.filter_eq_nil_iff, mem_listed_iff]
    dsimp only
    split
    next h =>
      rw [mem_listed_iff]
      exact ⟨fun hc => ⟨hc, fun n' hn => by cases hn; exact .inr (hempty.1 h)⟩, And.left⟩
    next h =>
      rw [List.mem_filter, mem_listed_iff]
      refine and_congr_right fun _ => ⟨fun hc n' hn => by cases hn; exact .inl hc, fun hc => ?_⟩
      exact (hc n rfl).resolve_right fun hd => h (hempty.2 hd)

theorem mem_branch_iff : c ∈ branch root node l ↔ ∃ condition n, l.member? "if" = some condition ∧
    node = some n ∧ l.member? (if fits root condition.value n then "then" else "else") =
      some c := by
  unfold branch
  cases l.member? "if" with
  | none => simp
  | some condition =>
    cases node with
    | none => simp
    | some n => simp

theorem mem_brought_iff : c ∈ brought root node l ↔ Applicator root node l c := by
  simp only [brought, List.mem_append, mem_listed_iff, mem_chosen_iff, mem_branch_iff]
  constructor
  · rintro (((h | h) | h) | ⟨condition, n, hif, hn, h⟩)
    · exact .allOf h
    · exact .anyOf h
    · exact .oneOf h
    · cases hc : fits root condition.value n with
      | true => exact .consequence hif hn hc (by simpa [hc] using h)
      | false => exact .alternative hif hn hc (by simpa [hc] using h)
  · intro h
    cases h with
    | allOf h => exact .inl (.inl (.inl h))
    | anyOf h => exact .inl (.inl (.inr h))
    | oneOf h => exact .inl (.inr h)
    | consequence hif hn hc h => exact .inr ⟨_, _, hif, hn, by simpa [hc] using h⟩
    | alternative hif hn hc h => exact .inr ⟨_, _, hif, hn, by simpa [hc] using h⟩

theorem Lists.within {keyword : String} (h : Lists l keyword c) (hl : l.Within root) :
    c.Within root := by
  obtain ⟨i, hi⟩ := h
  obtain ⟨a, ha, hc⟩ := Option.bind_eq_some_iff.1 hi
  exact (hl.member? ha).item? hc

theorem Applicator.within (h : Applicator root node l c) (hl : l.Within root) : c.Within root := by
  cases h with
  | allOf h => exact h.within hl
  | anyOf h => exact h.1.within hl
  | oneOf h => exact h.1.within hl
  | consequence _ _ _ h => exact hl.member? h
  | alternative _ _ _ h => exact hl.member? h

/-! ## Schemas one step further -/

variable {engine : Engine}

/-- The keyword of the schemas by position: an own one, or else the general one. -/
def tupleKeyword (l : Located) : String :=
  if (l.member? "prefixItems").isSome then "prefixItems" else "items"

/-- `l` applies `c` to the values that a segment leads to. -/
inductive Child (engine : Engine) (l : Located) : Segment → Located → Prop
  | own {key : String} {c : Located}
    (h : (l.member? "properties").bind (·.member? key) = some c) : Child engine l (.key key) c
  | pattern {key p : String} {c : Located}
    (h : (l.member? "patternProperties").bind (·.member? p) = some c)
    (hp : keyMatches engine p key = true) : Child engine l (.key key) c
  | additional {key : String} {c : Located}
    (hown : (l.member? "properties").bind (·.member? key) = none)
    (hpattern : ∀ p d, (l.member? "patternProperties").bind (·.member? p) = some d →
      keyMatches engine p key = false)
    (h : l.member? "additionalProperties" = some c) : Child engine l (.key key) c
  | tuple {i : Nat} {c : Located} (h : (l.member? (tupleKeyword l)).bind (·.item? i) = some c) :
    Child engine l (.index i) c
  | items {i : Nat} {c : Located} (htuple : (l.member? (tupleKeyword l)).bind (·.item? i) = none)
    (h : l.member? "items" = some c) (hc : c.value.isObject = true) : Child engine l (.index i) c
  | further {i : Nat} {c : Located} (htuple : (l.member? (tupleKeyword l)).bind (·.item? i) = none)
    (hitems : ∀ d, l.member? "items" = some d → d.value.isObject = false)
    (h : l.member? "additionalItems" = some c) : Child engine l (.index i) c

theorem mem_keyChildren_iff {key : String} (hroot : root.Keyed) (hl : l.Within root) :
    c ∈ keyChildren engine l key ↔ Child engine l (.key key) c := by
  have hpatterns (p : String) (d : Located) :
      (p, d) ∈ ((l.member? "patternProperties").bind Located.members?).getD [] ↔
        (l.member? "patternProperties").bind (·.member? p) = some d := by
    cases hp : l.member? "patternProperties" with
    | none => simp
    | some a => exact (hl.member? hp).mem_members?_iff hroot
  have hfound (d : Located) :
      d ∈ ((l.member? "properties").bind (·.member? key)).toList ++
          ((((l.member? "patternProperties").bind Located.members?).getD []).filter fun entry =>
            keyMatches engine entry.1 key).map (·.2) ↔
        (l.member? "properties").bind (·.member? key) = some d ∨
          ∃ p, (l.member? "patternProperties").bind (·.member? p) = some d ∧
            keyMatches engine p key = true := by
    simp [← hpatterns]
  unfold keyChildren
  dsimp only
  split
  next hempty =>
    rw [List.isEmpty_iff, List.eq_nil_iff_forall_not_mem] at hempty
    have hnone (d : Located) := mt (hfound d).2 (hempty d)
    rw [Option.mem_toList]
    constructor
    · intro h
      refine .additional (Option.eq_none_iff_forall_ne_some.2 fun d hd => hnone d (.inl hd)) ?_ h
      intro p d hp
      exact Bool.eq_false_iff.2 fun hm => hnone d (.inr ⟨p, hp, hm⟩)
    · intro h
      cases h with
      | own h => exact absurd (.inl h) (hnone c)
      | pattern h hp => exact absurd (.inr ⟨_, h, hp⟩) (hnone c)
      | additional _ _ h => exact h
  next hsome =>
    rw [hfound]
    constructor
    · rintro (h | ⟨p, h, hp⟩)
      · exact .own h
      · exact .pattern h hp
    · intro h
      cases h with
      | own h => exact .inl h
      | pattern h hp => exact .inr ⟨_, h, hp⟩
      | additional hown hpattern _ =>
        -- A schema is found, although neither the key's own nor a pattern's is there.
        obtain ⟨d, hd⟩ := List.exists_mem_of_ne_nil _ (mt List.isEmpty_iff.2 hsome)
        rcases (hfound d).1 hd with hd | ⟨p, hp, hm⟩
        · rw [hown] at hd
          cases hd
        · rw [hpattern p d hp] at hm
          cases hm

theorem tuple?_getElem? (l : Located) (i : Nat) :
    (tuple? l).bind (·[i]?) = (l.member? (tupleKeyword l)).bind (·.item? i) := by
  have hitem (a : Located) : a.items?.bind (·[i]?) = a.item? i := by
    obtain ⟨steps, value⟩ := a
    cases value <;> simp [Located.items?, Located.item?, Json.asArray?, Json.item?]
  unfold tuple? tupleKeyword
  cases hp : l.member? "prefixItems" with
  | some a => simp [hp, hitem]
  | none => simp [Option.bind_assoc, hitem]

theorem mem_indexChildren_iff {i : Nat} : c ∈ indexChildren l i ↔ Child engine l (.index i) c := by
  unfold indexChildren
  rw [tuple?_getElem?]
  cases htuple : (l.member? (tupleKeyword l)).bind (·.item? i) with
  | some d =>
    constructor
    · intro h
      exact .tuple (htuple.trans (congrArg some (List.mem_singleton.1 h).symm))
    · intro h
      cases h with
      | tuple h => exact List.mem_singleton.2 (Option.some.inj (h.symm.trans htuple))
      | items h => rw [htuple] at h; cases h
      | further h => rw [htuple] at h; cases h
  | none =>
    dsimp only
    cases hitems : l.member? "items" with
    | none =>
      rw [Option.mem_toList]
      refine ⟨fun h => .further htuple (by simp [hitems]) h, fun h => ?_⟩
      cases h with
      | tuple h => rw [htuple] at h; cases h
      | items _ h => rw [hitems] at h; cases h
      | further _ _ h => exact h
    | some d =>
      dsimp only
      cases hd : d.value.isObject with
      | true =>
        rw [if_pos rfl, List.mem_singleton]
        constructor
        · rintro rfl
          exact .items htuple hitems hd
        · intro h
          cases h with
          | tuple h => rw [htuple] at h; cases h
          | items _ h => exact Option.some.inj (h.symm.trans hitems)
          | further _ h => rw [h d hitems] at hd; cases hd
      | false =>
        rw [if_neg Bool.false_ne_true, Option.mem_toList]
        constructor
        · intro h
          refine .further htuple (fun e he => ?_) h
          rw [hitems] at he
          cases he
          exact hd
        · intro h
          cases h with
          | tuple h => rw [htuple] at h; cases h
          | items _ h hc =>
            rw [hitems] at h
            cases h
            rw [hd] at hc
            cases hc
          | further _ _ h => exact h

theorem mem_children_iff {s : Segment} (hroot : root.Keyed) (hl : l.Within root) :
    c ∈ children engine l s ↔ Child engine l s c := by
  cases s with
  | key name => exact mem_keyChildren_iff hroot hl
  | index i => exact mem_indexChildren_iff

theorem Child.within {s : Segment} (h : Child engine l s c) (hl : l.Within root) :
    c.Within root := by
  cases h with
  | own h =>
    obtain ⟨a, ha, hc⟩ := Option.bind_eq_some_iff.1 h
    exact (hl.member? ha).member? hc
  | pattern h =>
    obtain ⟨a, ha, hc⟩ := Option.bind_eq_some_iff.1 h
    exact (hl.member? ha).member? hc
  | additional _ _ h => exact hl.member? h
  | tuple h =>
    obtain ⟨a, ha, hc⟩ := Option.bind_eq_some_iff.1 h
    exact (hl.member? ha).item? hc
  | items _ h => exact hl.member? h
  | further _ _ h => exact hl.member? h

/-! ## Expansion -/

/-- `l` stands for the object schema `t`. -/
structure Enters (root : Json) (l t : Located) : Prop where
  source : l.value.isObject = true
  resolves : Resolves root l t
  target : t.value.isObject = true

/-- Where `l` applies, `t` applies. -/
inductive Brings (root : Json) (node : Option Node) : Located → Located → Prop
  | self {l t : Located} (h : Enters root l t) : Brings root node l t
  | applicator {l m c t : Located} (h : Enters root l m) (hc : Applicator root node m c)
    (ht : Brings root node c t) : Brings root node l t

/-- Where `l` applies, `t` applies, and at most `d` keywords nest on the way. -/
inductive BringsWithin (root : Json) (node : Option Node) : Nat → Located → Located → Prop
  | self {d : Nat} {l t : Located} (h : Enters root l t) : BringsWithin root node d l t
  | applicator {d : Nat} {l m c t : Located} (h : Enters root l m)
    (hc : Applicator root node m c) (ht : BringsWithin root node d c t) :
    BringsWithin root node (d + 1) l t

theorem BringsWithin.mono {d e : Nat} (h : BringsWithin root node d l t) (hde : d ≤ e) :
    BringsWithin root node e l t := by
  induction h generalizing e with
  | self h => exact .self h
  | applicator h hc _ ih =>
    obtain ⟨e, rfl⟩ := Nat.exists_eq_add_of_le' (Nat.le_trans (Nat.le_add_left 1 _) hde)
    exact .applicator h hc (ih (Nat.le_of_succ_le_succ hde))

theorem brings_iff : Brings root node l t ↔ ∃ d, BringsWithin root node d l t := by
  constructor
  · intro h
    induction h with
    | self h => exact ⟨0, .self h⟩
    | applicator h hc _ ih =>
      obtain ⟨d, hd⟩ := ih
      exact ⟨d + 1, .applicator h hc hd⟩
  · rintro ⟨d, h⟩
    induction h with
    | self h => exact .self h
    | applicator h hc _ ih => exact .applicator h hc ih

theorem Enters.within (h : Enters root l t) (hl : l.Within root) : t.Within root :=
  h.resolves.within hl

theorem BringsWithin.within {d : Nat} (h : BringsWithin root node d l t) (hl : l.Within root) :
    t.Within root := by
  induction h with
  | self h => exact h.within hl
  | applicator h hc _ ih => exact ih (hc.within (h.within hl))

theorem enters_iff (hrefs : ShortChains root) (hl : l.Within root) :
    Enters root l t ↔
      l.value.isObject = true ∧ (resolve root l).value.isObject = true ∧ t = resolve root l := by
  constructor
  · rintro ⟨hsource, hresolves, htarget⟩
    obtain rfl := (resolves_iff hrefs hl).1 hresolves
    exact ⟨hsource, htarget, rfl⟩
  · rintro ⟨hsource, htarget, rfl⟩
    exact ⟨hsource, (resolves_iff hrefs hl).2 rfl, htarget⟩

theorem mem_expandTo_succ_iff (hrefs : ShortChains root) (d : Nat) (hl : l.Within root) :
    t ∈ expandTo root node (d + 1) l ↔ ∃ m, Enters root l m ∧
      (t = m ∨ ∃ c, Applicator root node m c ∧ t ∈ expandTo root node d c) := by
  rw [expandTo]
  simp only [enters_iff hrefs hl]
  split
  next hsource =>
    split
    next htarget => simp [hsource, htarget, mem_brought_iff]
    next htarget => simp [htarget]
  next hsource => simp [hsource]

/-- By induction on the depth: a level of the expansion is a rule of the derivation. -/
theorem mem_expandTo_iff (hrefs : ShortChains root) (d : Nat) (hl : l.Within root) :
    t ∈ expandTo root node (d + 1) l ↔ BringsWithin root node d l t := by
  induction d generalizing l with
  | zero =>
    rw [mem_expandTo_succ_iff hrefs 0 hl]
    constructor
    · rintro ⟨m, hm, rfl | ⟨c, _, hc⟩⟩
      · exact .self hm
      · cases hc
    · rintro (h | _)
      exact ⟨t, h, .inl rfl⟩
  | succ d ih =>
    rw [mem_expandTo_succ_iff hrefs (d + 1) hl]
    constructor
    · rintro ⟨m, hm, rfl | ⟨c, hc, ht⟩⟩
      · exact .self hm
      · exact .applicator hm hc ((ih (hc.within (hm.within hl))).1 ht)
    · intro h
      cases h with
      | self h => exact ⟨t, h, .inl rfl⟩
      | applicator hm hc ht => exact ⟨_, hm, .inr ⟨_, hc, (ih (hc.within (hm.within hl))).2 ht⟩⟩

/-! ## Paths -/

/-- From the schema `l` a path leads to the schema `t`, when schemas bring
    others with them as `E` says. -/
inductive Leads (engine : Engine) (E : Option Node → Located → Located → Prop) :
    List PathStep → Located → Located → Prop
  | nil {l : Located} : Leads engine E [] l l
  | cons {l c m t : Located} {s : PathStep} {path : List PathStep} (hc : Child engine l s.segment c)
    (hm : E s.node c m) (ht : Leads engine E path m t) : Leads engine E (s :: path) l t

/-- A schema applies at the end of a path in a document. -/
def Applies (engine : Engine) (root : Json) (document : Option Node) (path : List PathStep)
    (t : Located) : Prop :=
  ∃ m, Brings root document (.root root) m ∧ Leads engine (Brings root) path m t

/-- A schema applies at the end of a path in a document, and at most `d` keywords
    nest at each value on the way. -/
def AppliesWithin (engine : Engine) (root : Json) (d : Nat) (document : Option Node)
    (path : List PathStep) (t : Located) : Prop :=
  ∃ m, BringsWithin root document d (.root root) m ∧
    Leads engine (fun node => BringsWithin root node d) path m t

theorem Brings.within (h : Brings root node l t) (hl : l.Within root) : t.Within root := by
  obtain ⟨d, hd⟩ := brings_iff.1 h
  exact hd.within hl

/-- What `E` brings from a place is a place, and `F` brings it too: so a path of
    `E` ends at a place and is a path of `F`. -/
theorem Leads.map {E F : Option Node → Located → Located → Prop} {path : List PathStep}
    (h : Leads engine E path l t) (hl : l.Within root)
    (hE : ∀ node c m, c.Within root → E node c m → m.Within root ∧ F node c m) :
    t.Within root ∧ Leads engine F path l t := by
  induction h with
  | nil => exact ⟨hl, .nil⟩
  | cons hc hm _ ih =>
    obtain ⟨hwithin, hF⟩ := hE _ _ _ (hc.within hl) hm
    obtain ⟨ht, hleads⟩ := ih hwithin
    exact ⟨ht, .cons hc hF hleads⟩

theorem Leads.mono {d e : Nat} {path : List PathStep} (hl : l.Within root) (hde : d ≤ e)
    (h : Leads engine (fun node => BringsWithin root node d) path l t) :
    Leads engine (fun node => BringsWithin root node e) path l t :=
  (h.map hl fun _ _ _ hc hm => ⟨hm.within hc, hm.mono hde⟩).2

/-- A path has finitely many values, and the deepest nesting at one of them bounds
    all. -/
theorem Leads.exists_depth {path : List PathStep} (h : Leads engine (Brings root) path l t)
    (hl : l.Within root) : ∃ d, Leads engine (fun node => BringsWithin root node d) path l t := by
  induction h with
  | nil => exact ⟨0, .nil⟩
  | cons hc hm _ ih =>
    obtain ⟨d, hd⟩ := brings_iff.1 hm
    have hwithin := hd.within (hc.within hl)
    obtain ⟨e, he⟩ := ih hwithin
    exact ⟨max d e, .cons hc (hd.mono (Nat.le_max_left d e))
      (he.mono hwithin (Nat.le_max_right d e))⟩

theorem AppliesWithin.applies {d : Nat} {document : Option Node} {path : List PathStep}
    (h : AppliesWithin engine root d document path t) :
    t.Within root ∧ Applies engine root document path t := by
  obtain ⟨m, hm, hleads⟩ := h
  obtain ⟨ht, hleads⟩ := hleads.map (F := Brings root) (hm.within (Located.within_root root))
    fun _ _ _ hc h => ⟨h.within hc, brings_iff.2 ⟨d, h⟩⟩
  exact ⟨ht, m, brings_iff.2 ⟨d, hm⟩, hleads⟩

theorem applies_iff {document : Option Node} {path : List PathStep} :
    Applies engine root document path t ↔ ∃ d, AppliesWithin engine root d document path t := by
  constructor
  · rintro ⟨m, hm, ht⟩
    obtain ⟨d, hd⟩ := brings_iff.1 hm
    have hwithin := hd.within (Located.within_root root)
    obtain ⟨e, he⟩ := ht.exists_depth hwithin
    exact ⟨max d e, m, hd.mono (Nat.le_max_left d e), he.mono hwithin (Nat.le_max_right d e)⟩
  · rintro ⟨d, h⟩
    exact h.applies.2

/-- Where every schema brings what it brings within a depth, nothing applies
    beyond it. -/
theorem Applies.within_depth {d : Nat} {document : Option Node} {path : List PathStep}
    (hdeep : ∀ node l t, l.Within root → Brings root node l t → BringsWithin root node d l t)
    (h : Applies engine root document path t) : AppliesWithin engine root d document path t := by
  obtain ⟨m, hm, hleads⟩ := h
  have hroot := Located.within_root root
  refine ⟨m, hdeep _ _ _ hroot hm, (hleads.map (hm.within hroot) fun node c m hc h => ?_).2⟩
  exact ⟨h.within hc, hdeep node c m hc h⟩

theorem mem_of_mem_distinct {seen : List (List Segment)} {ls : List Located}
    (h : t ∈ distinct seen ls) : t ∈ ls ∧ t.steps ∉ seen := by
  induction ls generalizing seen with
  | nil => cases h
  | cons l ls ih =>
    rw [distinct] at h
    split at h
    next =>
      exact (ih h).imp_left (List.mem_cons_of_mem _)
    next hseen =>
      rcases List.mem_cons.1 h with rfl | h
      · exact ⟨List.mem_cons_self, by simpa using hseen⟩
      · obtain ⟨hmem, hsteps⟩ := ih h
        exact ⟨List.mem_cons_of_mem _ hmem, fun hs => hsteps (List.mem_cons_of_mem _ hs)⟩

theorem exists_mem_distinct {seen : List (List Segment)} {ls : List Located} (h : t ∈ ls)
    (hseen : t.steps ∉ seen) : ∃ u ∈ distinct seen ls, u.steps = t.steps := by
  induction ls generalizing seen with
  | nil => cases h
  | cons l ls ih =>
    rw [distinct]
    by_cases hl : l.steps = t.steps
    · rw [if_neg (by simpa [hl] using hseen)]
      exact ⟨l, List.mem_cons_self, hl⟩
    · have ht : t ∈ ls := (List.mem_cons.1 h).resolve_left fun h => hl (h ▸ rfl)
      split
      next => exact ih ht hseen
      next =>
        have hseen' : t.steps ∉ l.steps :: seen := by
          simpa [hseen] using fun h => hl h.symm
        obtain ⟨u, hu, hsteps⟩ := ih ht hseen'
        exact ⟨u, List.mem_cons_of_mem _ hu, hsteps⟩

theorem distinct_nodup (seen : List (List Segment)) (ls : List Located) :
    ((distinct seen ls).map Located.steps).Nodup := by
  induction ls generalizing seen with
  | nil => exact List.nodup_nil
  | cons l ls ih =>
    rw [distinct]
    split
    next => exact ih seen
    next =>
      refine List.nodup_cons.2 ⟨fun h => ?_, ih _⟩
      obtain ⟨u, hu, hsteps⟩ := List.mem_map.1 h
      exact (mem_of_mem_distinct hu).2 (hsteps ▸ List.mem_cons_self)

/-- Of places in one root, leaving out those seen before loses nothing. -/
theorem mem_distinct_iff {ls : List Located} (hls : ∀ l ∈ ls, l.Within root) :
    t ∈ distinct [] ls ↔ t ∈ ls := by
  refine ⟨fun h => (mem_of_mem_distinct h).1, fun h => ?_⟩
  obtain ⟨u, hu, hsteps⟩ := exists_mem_distinct h List.not_mem_nil
  have hut := (hls u (mem_of_mem_distinct hu).1).eq_of_steps (hls t h) hsteps
  exact hut ▸ hu

theorem mem_expand_iff (hrefs : ShortChains root) (hl : l.Within root) :
    t ∈ expand root node l ↔ BringsWithin root node maxDepth l t :=
  mem_expandTo_iff hrefs maxDepth hl

section Walk

variable (hroot : root.Keyed) (hrefs : ShortChains root) {current : List Located}
  (hcurrent : ∀ l ∈ current, l.Within root)
include hroot hrefs hcurrent

theorem mem_step_iff (s : PathStep) :
    t ∈ current.flatMap (fun l => (children engine l s.segment).flatMap (expand root s.node)) ↔
      ∃ l ∈ current, ∃ c, Child engine l s.segment c ∧ BringsWithin root s.node maxDepth c t := by
  simp only [List.mem_flatMap]
  refine exists_congr fun l => and_congr_right fun hl => exists_congr fun c => ?_
  rw [mem_children_iff hroot (hcurrent l hl)]
  exact and_congr_right fun hc => mem_expand_iff hrefs (hc.within (hcurrent l hl))

theorem step_within (s : PathStep) :
    ∀ t ∈ current.flatMap (fun l => (children engine l s.segment).flatMap (expand root s.node)),
      t.Within root := by
  intro t ht
  obtain ⟨l, hl, c, hc, hbrings⟩ := (mem_step_iff hroot hrefs hcurrent s).1 ht
  exact hbrings.within (hc.within (hcurrent l hl))

theorem mem_advance_iff (s : PathStep) :
    t ∈ advance engine root current s ↔
      ∃ l ∈ current, ∃ c, Child engine l s.segment c ∧ BringsWithin root s.node maxDepth c t :=
  (mem_distinct_iff (step_within hroot hrefs hcurrent s)).trans
    (mem_step_iff hroot hrefs hcurrent s)

theorem advance_within (s : PathStep) : ∀ t ∈ advance engine root current s, t.Within root :=
  fun t ht => step_within hroot hrefs hcurrent s t (mem_of_mem_distinct ht).1

/-- By induction on the path, from any list of schemas to start with. -/
theorem mem_foldl_advance_iff (path : List PathStep) :
    t ∈ path.foldl (advance engine root) current ↔
      ∃ l ∈ current, Leads engine (fun node => BringsWithin root node maxDepth) path l t := by
  induction path generalizing current with
  | nil =>
    constructor
    · intro h
      exact ⟨t, h, .nil⟩
    · rintro ⟨l, hl, ⟨⟩⟩
      exact hl
  | cons s path ih =>
    rw [List.foldl_cons, ih (advance_within hroot hrefs hcurrent s)]
    constructor
    · rintro ⟨m, hm, ht⟩
      obtain ⟨l, hl, c, hc, hbrings⟩ := (mem_advance_iff hroot hrefs hcurrent s).1 hm
      exact ⟨l, hl, .cons hc hbrings ht⟩
    · rintro ⟨l, hl, _ | ⟨hc, hbrings, ht⟩⟩
      exact ⟨_, (mem_advance_iff hroot hrefs hcurrent s).2 ⟨l, hl, _, hc, hbrings⟩, ht⟩

end Walk

theorem mem_along_iff (hroot : root.Keyed) (hrefs : ShortChains root) (document : Option Node)
    (path : List PathStep) :
    t ∈ along engine root document path ↔ AppliesWithin engine root maxDepth document path t := by
  have hmem (m : Located) :=
    @mem_expand_iff root document (.root root) m hrefs (Located.within_root root)
  have hcurrent : ∀ m ∈ expand root document (.root root), m.Within root := fun m hm =>
    ((hmem m).1 hm).within (Located.within_root root)
  unfold along AppliesWithin
  rw [mem_foldl_advance_iff hroot hrefs hcurrent path]
  exact exists_congr fun m => and_congr_left fun _ => hmem m

theorem along_nodup (engine : Engine) (root : Json) (document : Option Node) {path : List PathStep}
    (h : path ≠ []) :
    ((along engine root document path).map Located.steps).Nodup := by
  obtain ⟨before, s, rfl⟩ := (List.eq_nil_or_concat path).resolve_left h
  rw [along, List.concat_eq_append, List.foldl_append]
  exact distinct_nodup _ _

/-! ## The walk -/

/-- The walk along a path finds schemas that apply there, and it finds every
    schema that applies there with keywords nested no deeper than its bound.
    Where no schema needs deeper nesting it finds exactly the schemas that apply.
    After the first step it finds each place once. -/
theorem along_applies (engine : Engine) (root : Json) (hroot : root.Keyed)
    (hrefs : ShortChains root) (document : Option Node) (path : List PathStep) :
    (∀ t ∈ along engine root document path, t.Within root ∧ Applies engine root document path t) ∧
    (∀ t, t ∈ along engine root document path ↔
      AppliesWithin engine root maxDepth document path t) ∧
    (∀ t, Applies engine root document path t ↔ ∃ d, AppliesWithin engine root d document path t) ∧
    ((∀ node l t, l.Within root → Brings root node l t → BringsWithin root node maxDepth l t) →
      ∀ t, t ∈ along engine root document path ↔ Applies engine root document path t) ∧
    (path ≠ [] → ((along engine root document path).map Located.steps).Nodup) := by
  have hmem (t : Located) :
      t ∈ along engine root document path ↔ AppliesWithin engine root maxDepth document path t :=
    mem_along_iff hroot hrefs document path
  refine ⟨fun t ht => ((hmem t).1 ht).applies, hmem, fun t => applies_iff,
    fun hdeep t => ⟨fun ht => ?_, fun ht => ?_⟩, along_nodup engine root document⟩
  · exact ((hmem t).1 ht).applies.2
  · exact (hmem t).2 (ht.within_depth hdeep)

/-- Pages whose body holds pages and forms. -/
def pageSchema : Json := .object [("anyOf", .array [
  .object [("properties", .object [("type", .object [("const", .string "page")]),
    ("body", .object [("items", .object [("$ref", .string "#")])])])],
  .object [("properties", .object [("type", .object [("const", .string "form")])])]])]

/-- The first value of the body of a page, which is known to be a form. -/
def formInPage : List PathStep :=
  [⟨.key "body", none⟩, ⟨.index 0, some (.object ⟨0, 9, 15⟩
    [.property ⟨1, 10, 13⟩ (some 16) (.atom ⟨2, 10, 6⟩ (.string "type"))
      (.atom ⟨3, 17, 6⟩ (.string "form"))])⟩]

theorem along_applies_form :
    pageSchema.Keyed ∧ ShortChains pageSchema ∧
    (along Pattern.engine pageSchema none formInPage).map Located.steps =
      [[], [.index 1, .key "anyOf"]] ∧
    (∀ t ∈ along Pattern.engine pageSchema none formInPage,
      t.Within pageSchema ∧ Applies Pattern.engine pageSchema none formInPage t) ∧
    (∀ t, AppliesWithin Pattern.engine pageSchema maxDepth none formInPage t →
      t.steps ≠ [.index 0, .key "anyOf"]) := by
  have hroot : pageSchema.Keyed := by decide +kernel
  have hrefs : ShortChains pageSchema := by decide +kernel
  have hsteps : (along Pattern.engine pageSchema none formInPage).map Located.steps =
      [[], [.index 1, .key "anyOf"]] := by decide +kernel
  obtain ⟨hsound, hwithin, _⟩ := along_applies Pattern.engine pageSchema hroot hrefs none formInPage
  refine ⟨hroot, hrefs, hsteps, hsound, fun t ht hpage => ?_⟩
  have hmem := List.mem_map_of_mem (f := Located.steps) ((hwithin t).2 ht)
  rw [hsteps, hpage] at hmem
  revert hmem
  decide

end AnnotatedJson.Schema
