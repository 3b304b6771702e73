/-
  Places in a JSON value.

  A located value is at its place when its steps lead from the root to it.  In a
  value whose objects name no member twice, places and located values are the
  same thing.

  * `Json.inner` lists the values inside a value, `Json.Keyed` says that none of
    them names a member twice;
  * `Json.at?` follows steps, `Located.Within` says that a value is at its place;
  * `Json.locate?_within`: a written pointer leads to a place;
  * `Located.Within.eq_of_steps`: two located values at one place are equal;
  * `Json.Produced`: what strict reading builds, `Json.read?_keyed`: every value that is read is
    keyed.
-/
import AnnotatedJson.Json.Pointer
import AnnotatedJson.Json.Reader

namespace AnnotatedJson

namespace Json

/-! ## Values inside a value -/

mutual

/-- The values inside a value, the value itself first. -/
def inner : Json → List Json
  | .null => [.null]
  | .bool b => [.bool b]
  | .number n => [.number n]
  | .string s => [.string s]
  | .array xs => .array xs :: innerItems xs
  | .object ms => .object ms :: innerMembers ms

/-- The values inside items. -/
def innerItems : List Json → List Json
  | [] => []
  | x :: xs => inner x ++ innerItems xs

/-- The values inside members. -/
def innerMembers : List (String × Json) → List Json
  | [] => []
  | (_, v) :: ms => inner v ++ innerMembers ms

end

/-- The names of the members of an object. -/
def names : Json → List String
  | .object ms => ms.map (·.1)
  | _ => []

/-- No object inside the value names a member twice. -/
def Keyed (v : Json) : Prop := ∀ w ∈ v.inner, w.names.Nodup

instance (v : Json) : Decidable v.Keyed := inferInstanceAs (Decidable (∀ w ∈ v.inner, w.names.Nodup))

theorem self_mem_inner (v : Json) : v ∈ v.inner := by
  cases v <;> simp [inner]

theorem inner_subset_innerItems {x : Json} {xs : List Json} (h : x ∈ xs) :
    x.inner ⊆ innerItems xs := by
  induction xs with
  | nil => simp at h
  | cons y ys ih =>
    rw [innerItems]
    rcases List.mem_cons.1 h with rfl | h
    · exact List.subset_append_left _ _
    · exact List.subset_append_of_subset_right _ (ih h)

theorem inner_subset_innerMembers {k : String} {v : Json} {ms : List (String × Json)}
    (h : (k, v) ∈ ms) : v.inner ⊆ innerMembers ms := by
  induction ms with
  | nil => simp at h
  | cons m ms ih =>
    obtain ⟨k', v'⟩ := m
    rw [innerMembers]
    rcases List.mem_cons.1 h with h | h
    · cases h
      exact List.subset_append_left _ _
    · exact List.subset_append_of_subset_right _ (ih h)

/-! ## Members and items -/

theorem mem_of_lookup {name : String} {v : Json} {ms : List (String × Json)}
    (h : lookup name ms = some v) : (name, v) ∈ ms := by
  induction ms with
  | nil => simp [lookup] at h
  | cons m ms ih =>
    obtain ⟨k, w⟩ := m
    rw [lookup] at h
    split at h
    next hk => cases h; simp [hk]
    next => exact List.mem_cons_of_mem _ (ih h)

theorem lookup_of_mem {name : String} {v : Json} {ms : List (String × Json)}
    (hn : (ms.map (·.1)).Nodup) (h : (name, v) ∈ ms) : lookup name ms = some v := by
  induction ms with
  | nil => simp at h
  | cons m ms ih =>
    obtain ⟨k, w⟩ := m
    simp only [List.map_cons, List.nodup_cons] at hn
    rw [lookup]
    rcases List.mem_cons.1 h with h | h
    · cases h
      simp
    · have hk : k ≠ name := fun hk => hn.1 (hk ▸ List.mem_map_of_mem h)
      rw [if_neg hk]
      exact ih hn.2 h

theorem inner_subset_of_member? {v w : Json} {name : String} (h : v.member? name = some w) :
    w.inner ⊆ v.inner := by
  cases v <;> simp only [member?, reduceCtorEq] at h
  case object ms =>
    rw [inner]
    exact List.subset_cons_of_subset _ (inner_subset_innerMembers (mem_of_lookup h))

theorem inner_subset_of_item? {v w : Json} {i : Nat} (h : v.item? i = some w) :
    w.inner ⊆ v.inner := by
  cases v <;> simp only [item?, reduceCtorEq] at h
  case array xs =>
    rw [inner]
    exact List.subset_cons_of_subset _ (inner_subset_innerItems (List.mem_of_getElem? h))

/-! ## Following steps -/

/-- The value that steps, given last first, lead to. -/
def at? (v : Json) : List Segment → Option Json
  | [] => some v
  | .key name :: steps => (v.at? steps).bind (·.member? name)
  | .index i :: steps => (v.at? steps).bind (·.item? i)

theorem inner_subset_of_at? {v w : Json} {steps : List Segment} (h : v.at? steps = some w) :
    w.inner ⊆ v.inner := by
  induction steps generalizing w with
  | nil => cases h; exact List.Subset.refl _
  | cons s steps ih =>
    cases s with
    | key name =>
      obtain ⟨u, hu, hw⟩ := Option.bind_eq_some_iff.1 h
      exact List.Subset.trans (inner_subset_of_member? hw) (ih hu)
    | index i =>
      obtain ⟨u, hu, hw⟩ := Option.bind_eq_some_iff.1 h
      exact List.Subset.trans (inner_subset_of_item? hw) (ih hu)

end Json

namespace Located

/-- The steps of a located value lead from the root to it. -/
def Within (root : Json) (l : Located) : Prop := root.at? l.steps = some l.value

theorem within_root (root : Json) : (Located.root root).Within root := rfl

theorem member?_eq_some_iff {l c : Located} {name : String} :
    l.member? name = some c ↔ l.value.member? name = some c.value ∧ c.steps = .key name :: l.steps := by
  obtain ⟨steps, value⟩ := c
  simp only [member?, Option.map_eq_some_iff, mk.injEq]
  constructor
  · rintro ⟨v, hv, rfl, rfl⟩
    exact ⟨hv, rfl⟩
  · rintro ⟨hv, rfl⟩
    exact ⟨value, hv, rfl, rfl⟩

theorem item?_eq_some_iff {l c : Located} {i : Nat} :
    l.item? i = some c ↔ l.value.item? i = some c.value ∧ c.steps = .index i :: l.steps := by
  obtain ⟨steps, value⟩ := c
  simp only [item?, Option.map_eq_some_iff, mk.injEq]
  constructor
  · rintro ⟨v, hv, rfl, rfl⟩
    exact ⟨hv, rfl⟩
  · rintro ⟨hv, rfl⟩
    exact ⟨value, hv, rfl, rfl⟩

theorem mem_items?_iff {l c : Located} :
    c ∈ l.items?.getD [] ↔ ∃ i, l.item? i = some c := by
  obtain ⟨steps, value⟩ := l
  cases value <;> simp only [items?, item?, Json.asArray?, Json.item?, Option.map_none,
    Option.map_some, Option.getD_none, Option.getD_some, List.not_mem_nil, reduceCtorEq,
    exists_false]
  case array xs =>
    simp only [List.mem_mapIdx, Option.map_eq_some_iff, List.getElem?_eq_some_iff]
    constructor
    · rintro ⟨i, hi, rfl⟩
      exact ⟨i, xs[i], ⟨hi, rfl⟩, rfl⟩
    · rintro ⟨i, v, ⟨hi, rfl⟩, rfl⟩
      exact ⟨i, hi, rfl⟩

variable {root : Json} {l : Located}

theorem Within.member? {c : Located} {name : String} (hl : l.Within root)
    (h : l.member? name = some c) : c.Within root := by
  obtain ⟨hv, hs⟩ := member?_eq_some_iff.1 h
  rw [Within, hs, Json.at?, hl]
  exact hv

theorem Within.item? {c : Located} {i : Nat} (hl : l.Within root) (h : l.item? i = some c) :
    c.Within root := by
  obtain ⟨hv, hs⟩ := item?_eq_some_iff.1 h
  rw [Within, hs, Json.at?, hl]
  exact hv

theorem Within.mem_inner (hl : l.Within root) : l.value ∈ root.inner :=
  Json.inner_subset_of_at? hl l.value.self_mem_inner

theorem Within.eq_of_steps {m : Located} (hl : l.Within root) (hm : m.Within root)
    (h : l.steps = m.steps) : l = m := by
  obtain ⟨steps, v⟩ := l
  obtain ⟨steps', w⟩ := m
  cases h
  cases Option.some.inj (hl.symm.trans hm)
  rfl

/-- In a keyed value the members of an object are what their names look up. -/
theorem Within.mem_members?_iff {name : String} {c : Located} (hroot : root.Keyed)
    (hl : l.Within root) : (name, c) ∈ l.members?.getD [] ↔ l.member? name = some c := by
  have hn := hroot _ hl.mem_inner
  clear hl hroot
  obtain ⟨steps, value⟩ := l
  cases value <;> simp only [members?, Located.member?, Json.asObject?, Json.member?, Option.map_none,
    Option.map_some, Option.getD_none, Option.getD_some, List.not_mem_nil, reduceCtorEq]
  case object ms =>
    simp only [List.mem_map, Option.map_eq_some_iff, Prod.mk.injEq]
    constructor
    · rintro ⟨⟨k, v⟩, hm, rfl, rfl⟩
      exact ⟨v, Json.lookup_of_mem hn hm, rfl⟩
    · rintro ⟨v, hv, rfl⟩
      exact ⟨(name, v), Json.mem_of_lookup hv, rfl, rfl⟩

/-! ## Written pointers -/

theorem Within.token? {c : Located} {token : String} (hl : l.Within root)
    (h : l.token? token = some c) : c.Within root := by
  unfold Located.token? at h
  split at h
  · exact hl.member? h
  · obtain ⟨i, _, hi⟩ := Option.bind_eq_some_iff.1 h
    exact hl.item? hi
  · cases h

theorem Within.tokens {c : Located} {tokens : List String} (hl : l.Within root)
    (h : tokens.foldlM (fun l token => l.token? (unescapeToken token)) l = some c) :
    c.Within root := by
  induction tokens generalizing l with
  | nil => cases h; exact hl
  | cons token tokens ih =>
    obtain ⟨m, hm, hc⟩ := Option.bind_eq_some_iff.1 (List.foldlM_cons.symm.trans h)
    exact ih (hl.token? hm) hc

end Located

theorem Json.locate?_within {root : Json} {pointer : String} {l : Located}
    (h : root.locate? pointer = some l) : l.Within root := by
  unfold Json.locate? at h
  split at h
  · cases h
    exact Located.within_root root
  · split at h
    · exact (Located.within_root root).tokens h
    · cases h

/-! ## Values that are read -/

namespace Json

theorem mem_innerItems {w : Json} {xs : List Json} (h : w ∈ innerItems xs) :
    ∃ x ∈ xs, w ∈ x.inner := by
  induction xs with
  | nil => simp [innerItems] at h
  | cons x xs ih =>
    rcases List.mem_append.1 (innerItems.eq_2 x xs ▸ h) with h | h
    · exact ⟨x, List.mem_cons_self, h⟩
    · obtain ⟨y, hy, hw⟩ := ih h
      exact ⟨y, List.mem_cons_of_mem _ hy, hw⟩

theorem mem_innerMembers {w : Json} {ms : List (String × Json)} (h : w ∈ innerMembers ms) :
    ∃ m ∈ ms, w ∈ m.2.inner := by
  induction ms with
  | nil => simp [innerMembers] at h
  | cons m ms ih =>
    obtain ⟨k, v⟩ := m
    rcases List.mem_append.1 (innerMembers.eq_2 k v ms ▸ h) with h | h
    · exact ⟨(k, v), List.mem_cons_self, h⟩
    · obtain ⟨m, hm, hw⟩ := ih h
      exact ⟨m, List.mem_cons_of_mem _ hm, hw⟩

theorem keyed_array {xs : List Json} (h : ∀ x ∈ xs, x.Keyed) : (Json.array xs).Keyed := by
  intro w hw
  rcases List.mem_cons.1 (inner.eq_5 xs ▸ hw) with rfl | hw
  · exact List.nodup_nil
  · obtain ⟨x, hx, hwx⟩ := mem_innerItems hw
    exact h x hx w hwx

/-- The members of a keyed object. -/
structure KeyedMembers (ms : List (String × Json)) : Prop where
  nodup : (ms.map (·.1)).Nodup
  keyed : ∀ m ∈ ms, m.2.Keyed

theorem KeyedMembers.object {ms : List (String × Json)} (h : KeyedMembers ms) :
    (Json.object ms).Keyed := by
  intro w hw
  rcases List.mem_cons.1 (inner.eq_6 ms ▸ hw) with rfl | hw
  · exact h.nodup
  · obtain ⟨m, hm, hwm⟩ := mem_innerMembers hw
    exact h.keyed m hm w hwm

theorem mem_insert {name : String} {v : Json} {ms : List (String × Json)} {m : String × Json}
    (h : m ∈ insert name v ms) : m = (name, v) ∨ m ∈ ms := by
  induction ms with
  | nil => exact .inl (List.mem_singleton.1 h)
  | cons e ms ih =>
    obtain ⟨k, w⟩ := e
    rw [insert] at h
    split at h
    next hk =>
      subst hk
      rcases List.mem_cons.1 h with h | h
      · exact .inl h
      · exact .inr (List.mem_cons_of_mem _ h)
    next =>
      rcases List.mem_cons.1 h with h | h
      · exact .inr (h ▸ List.mem_cons_self)
      · exact (ih h).imp_right (List.mem_cons_of_mem _)

theorem nodup_insert {ms : List (String × Json)} (name : String) (v : Json)
    (hn : (ms.map (·.1)).Nodup) : ((insert name v ms).map (·.1)).Nodup := by
  induction ms with
  | nil => simp [insert]
  | cons e ms ih =>
    obtain ⟨k, w⟩ := e
    rw [List.map_cons, List.nodup_cons] at hn
    rw [insert]
    split
    next => exact List.nodup_cons.2 hn
    next hk =>
      refine List.nodup_cons.2 ⟨fun hmem => ?_, ih hn.2⟩
      obtain ⟨m, hm, hmk⟩ := List.mem_map.1 hmem
      rcases mem_insert hm with rfl | hm
      · exact hk hmk.symm
      · exact hn.1 (List.mem_map.2 ⟨m, hm, hmk⟩)

theorem KeyedMembers.insert {v : Json} {ms : List (String × Json)} (name : String)
    (h : KeyedMembers ms) (hv : v.Keyed) : KeyedMembers (Json.insert name v ms) := by
  refine ⟨nodup_insert name v h.nodup, ?_⟩
  intro m hm
  rcases mem_insert hm with rfl | hm
  · exact hv
  · exact h.keyed m hm

theorem keyed_of_atomic {v : Json} (hi : v.inner = [v]) (hn : v.names = []) : v.Keyed := by
  intro w hw
  rw [hi, List.mem_singleton] at hw
  rw [hw, hn]
  exact List.nodup_nil

/-- The values that strict reading builds when containers may nest `depth` deep. -/
inductive Produced : Nat → Json → Prop
  | null {depth : Nat} : Produced depth .null
  | bool {depth : Nat} (b : Bool) : Produced depth (.bool b)
  | string {depth : Nat} (s : String) : Produced depth (.string s)
  | number {depth : Nat} {cs rest : Text} {n : Number} (h : number? cs = some (n, rest)) :
      Produced depth (.number n)
  | array {depth : Nat} {xs : List Json} (h : ∀ x ∈ xs, Produced depth x) :
      Produced (depth + 1) (.array xs)
  | object {depth : Nat} {ms : List (String × Json)} (hn : (ms.map (·.1)).Nodup)
      (h : ∀ m ∈ ms, Produced depth m.2) : Produced (depth + 1) (.object ms)

/-- By induction on the fuel that the three readers share. -/
theorem value?_produced (fuel : Nat) :
    (∀ depth cs v rest, value? fuel depth cs = some (v, rest) → Produced depth v) ∧
    (∀ depth seen cs v rest, (∀ x ∈ seen, Produced depth x) →
      items? fuel depth seen cs = some (v, rest) → Produced (depth + 1) v) ∧
    (∀ depth seen cs v rest, (seen.map (·.1)).Nodup → (∀ m ∈ seen, Produced depth m.2) →
      members? fuel depth seen cs = some (v, rest) → Produced (depth + 1) v) := by
  induction fuel with
  | zero => simp [value?, items?, members?]
  | succ fuel ih =>
    obtain ⟨ihValue, ihItems, ihMembers⟩ := ih
    refine ⟨?_, ?_, ?_⟩
    · intro depth cs v rest h
      rw [value?] at h
      split at h
      · cases h; exact .null
      · cases h; exact .bool true
      · cases h; exact .bool false
      · obtain ⟨a, _, ha⟩ := Option.map_eq_some_iff.1 h
        cases ha; exact .string _
      · split at h
        · cases h
        · split at h
          · cases h; exact .array (by simp)
          · exact ihItems _ _ _ _ _ (by simp) h
      · split at h
        · cases h
        · split at h
          · cases h; exact .object (by simp) (by simp)
          · exact ihMembers _ _ _ _ _ (by simp) (by simp) h
      · obtain ⟨⟨n, _⟩, hn, ha⟩ := Option.map_eq_some_iff.1 h
        cases ha; exact .number hn
    · intro depth seen cs v rest hseen h
      rw [items?] at h
      obtain ⟨⟨x, cs'⟩, hx, h⟩ := Option.bind_eq_some_iff.1 h
      have hseen' : ∀ y ∈ x :: seen, Produced depth y :=
        List.forall_mem_cons.2 ⟨ihValue _ _ _ _ hx, hseen⟩
      dsimp only at h
      split at h
      · exact ihItems _ _ _ _ _ hseen' h
      · cases h
        exact .array fun y hy => hseen' y (List.mem_reverse.1 hy)
      · cases h
    · intro depth seen cs v rest hnodup hseen h
      rw [members?] at h
      split at h
      · obtain ⟨⟨k, cs'⟩, _, h⟩ := Option.bind_eq_some_iff.1 h
        dsimp only at h
        split at h
        · obtain ⟨⟨x, cs''⟩, hx, h⟩ := Option.bind_eq_some_iff.1 h
          have hnodup' := nodup_insert (String.ofList k) x hnodup
          have hseen' : ∀ m ∈ insert (String.ofList k) x seen, Produced depth m.2 := by
            intro m hm
            rcases mem_insert hm with rfl | hm
            · exact ihValue _ _ _ _ hx
            · exact hseen m hm
          dsimp only at h
          split at h
          · exact ihMembers _ _ _ _ _ hnodup' hseen' h
          · cases h
            exact .object hnodup' hseen'
          · cases h
        · cases h
      · cases h

theorem read?_produced {limit : Nat} {cs : Text} {v : Json} (h : read? limit cs = some v) :
    Produced limit v := by
  unfold read? at h
  split at h
  next hv =>
    split at h
    · cases h
      exact (value?_produced _).1 _ _ _ _ hv
    · cases h
  next => cases h

theorem Produced.keyed {depth : Nat} {v : Json} (h : Produced depth v) : v.Keyed := by
  induction h with
  | null => exact keyed_of_atomic rfl rfl
  | bool b => exact keyed_of_atomic rfl rfl
  | string s => exact keyed_of_atomic rfl rfl
  | number h => exact keyed_of_atomic rfl rfl
  | array _ ih => exact keyed_array ih
  | object hn _ ih => exact KeyedMembers.object ⟨hn, ih⟩

theorem read?_keyed {limit : Nat} {cs : Text} {v : Json} (h : read? limit cs = some v) :
    v.Keyed :=
  (read?_produced h).keyed

end Json

end AnnotatedJson
