/-
  The entries of a cache after each operation.

  * `CacheEntry.Same`: entries with the same content, whatever their last use;
  * `ArtifactCache.lookup_cases`: a lookup gives the artifact of an entry that serves, or
    nothing, and keeps the content of all entries;
  * `ArtifactCache.mem_insert`: an insertion adds no other entry than that of its document, and
    only under the current generation;
  * `ArtifactCache.HasRoom`: a cache holds no more than it may, kept by every operation.
-/
import Mathlib
import AnnotatedJson.Cache.Basic

namespace AnnotatedJson

variable {α : Type}

/-- Two entries with the same content. -/
structure CacheEntry.Same (e e' : CacheEntry α) : Prop where
  uri : e.uri = e'.uri
  version : e.version = e'.version
  language : e.language = e'.language
  artifact : e.artifact = e'.artifact

/-- An entry that holds the artifact of a document. -/
structure CacheEntry.Holds (e : CacheEntry α) (d : Document) (a : α) : Prop where
  uri : e.uri = d.uri
  version : e.version = d.version
  language : e.language = d.language
  artifact : e.artifact = a

theorem CacheEntry.Holds.of_same {e e' : CacheEntry α} {d : Document} {a : α} (h : e.Holds d a)
    (hs : e.Same e') : e'.Holds d a :=
  ⟨hs.uri ▸ h.uri, hs.version ▸ h.version, hs.language ▸ h.language, hs.artifact ▸ h.artifact⟩

namespace ArtifactCache

variable {c : ArtifactCache α} {d : Document} {e : CacheEntry α} {uri : Uri}

/-! ## Content -/

theorem mem_erase : e ∈ (c.erase uri).entries ↔ e ∈ c.entries ∧ e.uri ≠ uri := by
  simp [erase]

theorem mem_touch (h : e ∈ (c.touch uri).entries) : ∃ e₀ ∈ c.entries, e₀.Same e := by
  obtain ⟨e₀, he₀, rfl⟩ := List.mem_map.1 h
  refine ⟨e₀, he₀, ?_⟩
  split <;> exact ⟨rfl, rfl, rfl, rfl⟩

theorem entry?_eq_some (h : c.entry? uri = some e) : e ∈ c.entries ∧ e.uri = uri :=
  ⟨List.mem_of_find?_eq_some h, by simpa using List.find?_some h⟩

theorem get?_eq_some {a : α} (h : c.get? uri = some a) :
    ∃ e ∈ c.entries, e.uri = uri ∧ e.artifact = a := by
  obtain ⟨e, he, ha⟩ := Option.map_eq_some_iff.1 h
  obtain ⟨hmem, huri⟩ := entry?_eq_some he
  exact ⟨e, hmem, huri, ha⟩

/-- A lookup finds the artifact of an entry that serves the document, or nothing. -/
theorem lookup_cases (c : ArtifactCache α) (d : Document) :
    (∃ e ∈ c.entries, e.uri = d.uri ∧ e.serves d = true ∧
      c.lookup d = (some e.artifact, touch { c with stamps := c.stamps + 1 } d.uri)) ∨
    c.lookup d = (none, { c with stamps := c.stamps + 1 }) := by
  have hstamp : entry? { c with stamps := c.stamps + 1 } d.uri = c.entry? d.uri := rfl
  simp only [lookup, hstamp]
  cases hentry : c.entry? d.uri with
  | none => exact .inr rfl
  | some e =>
    obtain ⟨hmem, huri⟩ := entry?_eq_some hentry
    by_cases hserves : e.serves d = true
    · exact .inl ⟨e, hmem, huri, hserves, if_pos hserves⟩
    · exact .inr (if_neg hserves)

section
variable (c d)

@[simp] theorem lookup_generation : (c.lookup d).2.generation = c.generation := by
  rcases lookup_cases c d with ⟨_, -, -, -, h⟩ | h
  · rw [h]; rfl
  · rw [h]

@[simp] theorem lookup_options : (c.lookup d).2.options = c.options := by
  rcases lookup_cases c d with ⟨_, -, -, -, h⟩ | h
  · rw [h]; rfl
  · rw [h]

@[simp] theorem lookup_size : (c.lookup d).2.size = c.size := by
  rcases lookup_cases c d with ⟨_, -, -, -, h⟩ | h <;> rw [h] <;> simp [size, touch]

end

theorem mem_lookup (h : e ∈ (c.lookup d).2.entries) : ∃ e₀ ∈ c.entries, e₀.Same e := by
  rcases lookup_cases c d with ⟨_, -, -, -, hl⟩ | hl <;> rw [hl] at h
  · exact mem_touch (c := { c with stamps := c.stamps + 1 }) h
  · exact ⟨e, h, rfl, rfl, rfl, rfl⟩

theorem lookup_some {a : α} {c' : ArtifactCache α} (h : c.lookup d = (some a, c')) :
    ∃ e ∈ c.entries, e.uri = d.uri ∧ e.serves d = true ∧ e.artifact = a := by
  rcases lookup_cases c d with ⟨e, hmem, huri, hserves, hl⟩ | hl <;> rw [hl] at h
  · cases h
    exact ⟨e, hmem, huri, hserves, rfl⟩
  · cases h

/-! ## Insertion -/

theorem mem_put {e' : CacheEntry α} (h : e ∈ (c.put e').entries) : e ∈ c.entries ∨ e = e' := by
  rcases List.mem_append.1 h with h | h
  · exact .inl (mem_erase.1 h).1
  · exact .inr (List.mem_singleton.1 h)

theorem mem_evict (h : e ∈ c.evict.entries) : e ∈ c.entries := by
  unfold evict at h
  split at h
  · exact (mem_erase.1 h).1
  · exact h

@[simp] theorem evict_options (c : ArtifactCache α) : c.evict.options = c.options := by
  unfold evict
  split <;> rfl

@[simp] theorem evict_generation (c : ArtifactCache α) : c.evict.generation = c.generation := by
  unfold evict
  split <;> rfl

/-- **An insertion adds the entry of its document**, and that only if the generation under
    which the artifact was asked for is not over. -/
theorem mem_insert {a : α} {g : Nat} (h : e ∈ (c.insert d a g).entries) :
    e ∈ c.entries ∨ c.generation = g ∧ e.Holds d a := by
  unfold insert at h
  split at h
  · exact .inl h
  · next hg =>
    have hg := not_not.1 hg
    dsimp only at h
    split at h
    · split at h
      · exact .inl h
      · rcases mem_put h with h | rfl
        · exact .inl h
        · exact .inr ⟨hg, rfl, rfl, rfl, rfl⟩
    · rcases mem_put h with h | rfl
      · split at h
        · exact .inl (mem_evict (c := { c with stamps := c.stamps + 1 }) h)
        · exact .inl h
      · exact .inr ⟨hg, rfl, rfl, rfl, rfl⟩

@[simp] theorem insert_options (c : ArtifactCache α) (d : Document) (a : α) (g : Nat) :
    (c.insert d a g).options = c.options := by
  unfold insert
  split
  · rfl
  · dsimp only
    split
    · split <;> rfl
    · split
      · exact evict_options _
      · rfl

@[simp] theorem insert_generation (c : ArtifactCache α) (d : Document) (a : α) (g : Nat) :
    (c.insert d a g).generation = c.generation := by
  unfold insert
  split
  · rfl
  · dsimp only
    split
    · split <;> rfl
    · split
      · exact evict_generation _
      · rfl

/-! ## Size -/

/-- A cache that holds no more entries than it may. -/
structure HasRoom (c : ArtifactCache α) : Prop where
  size_le : c.size ≤ c.options.maxEntries
  one_le : 1 ≤ c.options.maxEntries

theorem size_erase_le (c : ArtifactCache α) (uri : Uri) : (c.erase uri).size ≤ c.size :=
  List.length_filter_le _ _

theorem size_erase_lt (h : e ∈ c.entries) : (c.erase e.uri).size < c.size :=
  List.length_filter_lt_length_iff_exists.2 ⟨e, h, by simp⟩

theorem leastRecent?_eq_none {es : List (CacheEntry α)} (h : leastRecent? es = none) : es = [] := by
  cases es with
  | nil => rfl
  | cons e es =>
    rw [leastRecent?] at h
    split at h
    · cases h
    · split at h <;> cases h

theorem mem_of_leastRecent? {es : List (CacheEntry α)} (h : leastRecent? es = some e) : e ∈ es := by
  induction es with
  | nil => cases h
  | cons e' es ih =>
    rw [leastRecent?] at h
    split at h
    · cases h
      exact List.mem_cons_self
    · next other hother =>
      split at h <;> cases h
      · exact List.mem_cons_self
      · exact List.mem_cons_of_mem e' (ih hother)

/-- A full cache has room for one entry after it gave one up. -/
theorem size_evict_lt (h : 0 < c.size) : c.evict.size < c.size := by
  unfold evict
  split
  · next e he => exact size_erase_lt (mem_of_leastRecent? he)
  · next hnone =>
    rw [size, leastRecent?_eq_none hnone] at h
    cases h

theorem size_put_le (c : ArtifactCache α) (e : CacheEntry α) : (c.put e).size ≤ c.size + 1 := by
  have h := size_erase_le c e.uri
  simp only [size, put, List.length_append, List.length_singleton] at h ⊢
  omega

theorem size_put_of_mem {e' : CacheEntry α} (h : e ∈ c.entries) (huri : e.uri = e'.uri) :
    (c.put e').size ≤ c.size := by
  have hlt := size_erase_lt h
  rw [huri] at hlt
  simp only [size, put, List.length_append, List.length_singleton] at hlt ⊢
  omega

theorem HasRoom.insert (h : c.HasRoom) (d : Document) (a : α) (g : Nat) : (c.insert d a g).HasRoom := by
  refine ⟨?_, by rw [insert_options]; exact h.one_le⟩
  rw [insert_options]
  have hsize := h.size_le
  unfold ArtifactCache.insert
  split
  · exact hsize
  · dsimp only
    split
    · next e he =>
      obtain ⟨hmem, huri⟩ := entry?_eq_some he
      split
      · exact hsize
      · exact (size_put_of_mem hmem huri).trans hsize
    · refine (size_put_le _ _).trans ?_
      split
      · next hfull =>
        have hpos : 0 < c.size := h.one_le.trans hfull
        have hlt := size_evict_lt (c := { c with stamps := c.stamps + 1 }) hpos
        exact hlt.trans_le hsize
      · next hfree => exact Nat.lt_of_not_le hfree

theorem HasRoom.lookup (h : c.HasRoom) (d : Document) : (c.lookup d).2.HasRoom :=
  ⟨by simpa using h.size_le, by simpa using h.one_le⟩

theorem HasRoom.erase (h : c.HasRoom) (uri : Uri) : (c.erase uri).HasRoom :=
  ⟨(size_erase_le c uri).trans h.size_le, h.one_le⟩

theorem HasRoom.purge (h : c.HasRoom) (cutoff : Int) : (c.purge cutoff).2.HasRoom :=
  ⟨(List.length_filter_le _ _).trans h.size_le, h.one_le⟩

theorem hasRoom_configure (c : ArtifactCache α) (o : CacheOptions) : (c.configure o).HasRoom :=
  ⟨Nat.zero_le _, Nat.le_max_right _ _⟩

theorem hasRoom_ofOptions (o : CacheOptions) : (ofOptions o : ArtifactCache α).HasRoom :=
  ⟨Nat.zero_le _, Nat.le_max_right _ _⟩

theorem HasRoom.dispose (h : c.HasRoom) : c.dispose.HasRoom := ⟨Nat.zero_le _, h.one_le⟩

end ArtifactCache

end AnnotatedJson
