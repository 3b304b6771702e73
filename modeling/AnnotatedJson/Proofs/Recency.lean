/-
  A cache as a list in the order of last use.

  A cache keeps its entries in no particular order and finds the one to give up by the least
  stamp; it finds the old ones by the second of their last use.  Both orders are one.

  * `RecencyList` is a list of items, the one used least recently first, and `RecencyList.run`
    carries out a step on it without stamps;
  * `Maker.counted` counts how often an artifact is made;
  * `ArtifactCache.Ordered`: a list of the entries of a cache in the order of their stamps, which
    is also the order of their last use, with one lemma for each operation;
  * `RecencyList.Matches.run`: one step keeps a cache and a list alike, and answers the same;
  * `runAll_matches_recency`: so does any sequence of steps that do not overlap.
-/
import Mathlib
import AnnotatedJson.Cache.History
import AnnotatedJson.Proofs.CacheEntries
import AnnotatedJson.Proofs.Staleness

namespace AnnotatedJson

variable {σ α : Type}

/-! ## The list -/

/-- What is kept for a document. -/
structure CacheItem (α : Type) where
  uri : Uri
  version : Int
  language : String
  artifact : α
  lastUse : Nat

/-- What an entry keeps, whatever its stamp. -/
def CacheEntry.item (e : CacheEntry α) : CacheItem α :=
  ⟨e.uri, e.version, e.language, e.artifact, e.lastUse⟩

/-- Items in the order of last use, the least recent one first, with the clock, the maker and
    how often something was made. -/
structure RecencyList (σ α : Type) where
  items : List (CacheItem α)
  options : CacheOptions
  now : Nat
  ticksSince : Option Nat
  state : σ
  /-- How many gets found nothing that serves. -/
  misses : Nat
  /-- How many updates found an item. -/
  renewals : Nat

/-- A step with no other steps inside it. -/
def CacheStep.Alone : CacheStep → Prop
  | .get _ during | .update _ during => during = []
  | _ => True

namespace RecencyList

/-- The list before anything happened. -/
def start (o : CacheOptions) (s : σ) : RecencyList σ α :=
  ⟨[], o.atLeastOne, 0, ArtifactCache.ticksFrom o 0, s, 0, 0⟩

/-- The item of a document. -/
def item? (l : RecencyList σ α) (uri : Uri) : Option (CacheItem α) :=
  l.items.find? fun i => i.uri = uri

/-- The items of other documents. -/
def others (l : RecencyList σ α) (uri : Uri) : List (CacheItem α) :=
  l.items.filter fun i => i.uri ≠ uri

/-- Moves an item to the end, as used just now. -/
def use (l : RecencyList σ α) (i : CacheItem α) : RecencyList σ α :=
  { l with items := l.others i.uri ++ [{ i with lastUse := l.now }] }

/-- Appends the item of a document in place of the one that was there.  If there was none and the
    list is full, the head is given up. -/
def store (l : RecencyList σ α) (d : Document) (a : α) : RecencyList σ α :=
  let isFull : Bool := l.options.maxEntries ≤ l.items.length
  let items := if (l.item? d.uri).isNone && isFull then l.items.tail else l.items
  { l with
    items := (items.filter fun i => i.uri ≠ d.uri) ++ [⟨d.uri, d.version, d.language, a, l.now⟩] }

/-- Removes the items at the front that were last used before a second, and counts them. -/
def purge (l : RecencyList σ α) (cutoff : Int) : Nat × RecencyList σ α :=
  let isOld (i : CacheItem α) : Bool := (i.lastUse : Int) < cutoff
  ((l.items.takeWhile isOld).length, { l with items := l.items.dropWhile isOld })

/-- Makes the artifact of a document that has no item that serves. -/
def miss (maker : Maker σ α) (l : RecencyList σ α) (d : Document) :
    CacheAnswer α × RecencyList σ α :=
  let (a, s) := maker.make d l.state
  (.artifact a, { l.store d a with state := s, misses := l.misses + 1 })

/-- Makes the artifact of a document that has an item.  It is dropped if the item is ahead. -/
def renew (maker : Maker σ α) (l : RecencyList σ α) (d : Document) (i : CacheItem α) :
    RecencyList σ α :=
  let (a, s) := maker.make d l.state
  let kept := if d.version < i.version ∧ i.language = d.language then l else l.store d a
  { kept with state := s, renewals := l.renewals + 1 }

/-- Whether a tick is reached when time goes by. -/
def ticksWithin (l : RecencyList σ α) (secs : Nat) : Bool :=
  l.ticksSince.any fun start => ArtifactCache.ticksUpTo start l.options.cleanupSecs l.now <
    ArtifactCache.ticksUpTo start l.options.cleanupSecs (l.now + secs)

/-- Carries out a step on the list. -/
def run (maker : Maker σ α) (l : RecencyList σ α) : CacheStep → CacheAnswer α × RecencyList σ α
  | .get d _ =>
    match l.item? d.uri with
    | some i =>
      if d.version ≤ i.version ∧ i.language = d.language then (.artifact i.artifact, l.use i)
        else l.miss maker d
    | none => l.miss maker d
  | .update d _ =>
    match l.item? d.uri with
    | some i => (.nothing, l.renew maker d i)
    | none => (.nothing, l)
  | .peek uri =>
    match l.item? uri with
    | some i => (.artifact i.artifact, l)
    | none => (.nothing, l)
  | .erase uri => (.nothing, { l with items := l.others uri })
  | .configure settings =>
    let o := settings.cache.options.atLeastOne
    (.nothing, { l with
      items := []
      options := o
      ticksSince := if l.options = o then l.ticksSince else ArtifactCache.ticksFrom o l.now
      state := maker.configure settings l.state })
  | .dispose => (.nothing, { l with items := [], ticksSince := none })
  | .purge delay =>
    let (count, l) := l.purge (l.now + delay)
    (.count count, l)
  | .advance secs =>
    let later := { l with now := l.now + secs }
    (.nothing, if l.ticksWithin secs then (later.purge (later.now - l.options.ttlSecs)).2
      else later)

/-- Carries out steps one after another. -/
def runAll (maker : Maker σ α) (l : RecencyList σ α) (steps : List CacheStep) : RecencyList σ α :=
  steps.foldl (fun l step => (l.run maker step).2) l

end RecencyList

/-- A maker that counts how often it makes an artifact. -/
def Maker.counted (maker : Maker σ α) : Maker (σ × Nat) α where
  make d s := ((maker.make d s.1).1, (maker.make d s.1).2, s.2 + 1)
  configure settings s := (maker.configure settings s.1, s.2)

/-! ## Entries in order -/

namespace ArtifactCache

/-- The entries of a cache in the order of their stamps, which is the order of their last use. -/
structure Ordered (c : ArtifactCache α) (es : List (CacheEntry α)) : Prop where
  perm : es.Perm c.entries
  uris : (es.map CacheEntry.uri).Nodup
  stamps : es.Pairwise fun e e' => e.stamp < e'.stamp
  stamp_le : ∀ e ∈ es, e.stamp ≤ c.stamps
  uses : es.Pairwise fun e e' => e.lastUse ≤ e'.lastUse
  use_le : ∀ e ∈ es, e.lastUse ≤ c.now

variable {c c' : ArtifactCache α} {es : List (CacheEntry α)} {e : CacheEntry α} {uri : Uri}

theorem ordered_nil (h : c.entries = []) : c.Ordered [] :=
  ⟨by rw [h], by simp, by simp, by simp, by simp, by simp⟩

/-- The order stays while the entries do and the counters only grow. -/
theorem Ordered.mono (h : c.Ordered es) (hentries : c.entries.Perm c'.entries)
    (hstamps : c.stamps ≤ c'.stamps) (hnow : c.now ≤ c'.now) : c'.Ordered es where
  perm := h.perm.trans hentries
  uris := h.uris
  stamps := h.stamps
  stamp_le e he := (h.stamp_le e he).trans hstamps
  uses := h.uses
  use_le e he := (h.use_le e he).trans hnow

/-- Dropping entries keeps the order of the others. -/
theorem Ordered.filter (h : c.Ordered es) (p : CacheEntry α → Bool) :
    Ordered { c with entries := c.entries.filter p } (es.filter p) where
  perm := h.perm.filter p
  uris := h.uris.sublist (List.filter_sublist.map _)
  stamps := h.stamps.filter p
  stamp_le e he := h.stamp_le e (List.mem_of_mem_filter he)
  uses := h.uses.filter p
  use_le e he := h.use_le e (List.mem_of_mem_filter he)

/-- A list of entries for different documents has one entry at most for each. -/
theorem find?_eq_some_iff_mem (h : (es.map CacheEntry.uri).Nodup) :
    (es.find? fun e => e.uri = uri) = some e ↔ e ∈ es ∧ e.uri = uri := by
  constructor
  · intro hfind
    exact ⟨List.mem_of_find?_eq_some hfind, by simpa using List.find?_some hfind⟩
  · rintro ⟨hmem, rfl⟩
    cases hfind : es.find? fun e' => e'.uri = e.uri with
    | none => exact absurd (decide_eq_true rfl) (List.find?_eq_none.1 hfind e hmem)
    | some e' =>
      have huri : e'.uri = e.uri := by simpa using List.find?_some hfind
      rw [List.inj_on_of_nodup_map h (List.mem_of_find?_eq_some hfind) hmem huri]

theorem Ordered.find?_eq (h : c.Ordered es) (uri : Uri) :
    (es.find? fun e => e.uri = uri) = c.entry? uri := by
  have hnodup : (c.entries.map CacheEntry.uri).Nodup := (h.perm.map _).nodup_iff.1 h.uris
  apply Option.ext
  intro e
  unfold entry?
  rw [find?_eq_some_iff_mem h.uris, find?_eq_some_iff_mem hnodup, h.perm.mem_iff]

/-- An entry used now, with the last stamp, comes last. -/
theorem Ordered.put (h : c.Ordered es) (hfresh : ∀ e' ∈ es, e'.stamp < e.stamp)
    (hstamp : e.stamp ≤ c.stamps) (huse : e.lastUse = c.now) :
    (c.put e).Ordered ((es.filter fun e' => e'.uri ≠ e.uri) ++ [e]) := by
  have hf := h.filter fun e' => e'.uri ≠ e.uri
  refine ⟨hf.perm.append_right [e], ?_, ?_, ?_, ?_, ?_⟩
  · rw [List.map_append, List.nodup_append]
    refine ⟨hf.uris, by simp, fun u hu u' hu' => ?_⟩
    obtain ⟨e', he', rfl⟩ := List.mem_map.1 hu
    simp only [List.map_cons, List.map_nil, List.mem_singleton] at hu'
    subst hu'
    simpa using (List.mem_filter.1 he').2
  · rw [List.pairwise_append]
    refine ⟨hf.stamps, List.pairwise_singleton _ _, fun e' he' e'' he'' => ?_⟩
    rw [List.mem_singleton.1 he'']
    exact hfresh e' (List.mem_of_mem_filter he')
  · intro e' he'
    rcases List.mem_append.1 he' with he' | he'
    · exact hf.stamp_le e' he'
    · exact List.mem_singleton.1 he' ▸ hstamp
  · rw [List.pairwise_append]
    refine ⟨hf.uses, List.pairwise_singleton _ _, fun e' he' e'' he'' => ?_⟩
    rw [List.mem_singleton.1 he'', huse]
    exact hf.use_le e' he'
  · intro e' he'
    rcases List.mem_append.1 he' with he' | he'
    · exact hf.use_le e' he'
    · exact List.mem_singleton.1 he' ▸ huse.le

/-- Changing the entry of a document where it stands, or putting it last, is the same up to
    order. -/
theorem map_perm_filter (h : (es.map CacheEntry.uri).Nodup) (he : e ∈ es)
    (f : CacheEntry α → CacheEntry α) :
    (es.map fun e' => if e'.uri = e.uri then f e' else e').Perm
      ((es.filter fun e' => e'.uri ≠ e.uri) ++ [f e]) := by
  induction es with
  | nil => cases he
  | cons e₀ es ih =>
    obtain ⟨hnotMem, hnodup⟩ := List.nodup_cons.1 h
    rcases List.mem_cons.1 he with rfl | he
    · -- All others are entries of other documents.
      have hother : ∀ e' ∈ es, e'.uri ≠ e.uri :=
        fun e' he' heq => hnotMem (heq ▸ List.mem_map_of_mem he')
      have hmap : (es.map fun e' => if e'.uri = e.uri then f e' else e') = es :=
        (List.map_congr_left fun e' he' => if_neg (hother e' he')).trans (List.map_id es)
      have hfilter : (es.filter fun e' => e'.uri ≠ e.uri) = es :=
        List.filter_eq_self.2 fun e' he' => by simpa using hother e' he'
      rw [List.map_cons, if_pos rfl, hmap, List.filter_cons_of_neg (by simp), hfilter]
      exact (List.perm_append_comm : ([f e] ++ es).Perm (es ++ [f e]))
    · have hne : e₀.uri ≠ e.uri := fun heq => hnotMem (heq ▸ List.mem_map_of_mem he)
      rw [List.map_cons, if_neg hne, List.filter_cons_of_pos (by simpa using hne)]
      exact (ih hnodup he).cons e₀

/-- An entry that is used comes last. -/
theorem Ordered.touch (h : c.Ordered es) (he : e ∈ es) :
    Ordered (ArtifactCache.touch { c with stamps := c.stamps + 1 } e.uri)
      ((es.filter fun e' => e'.uri ≠ e.uri) ++
        [{ e with lastUse := c.now, stamp := c.stamps + 1 }]) := by
  let used : CacheEntry α := { e with lastUse := c.now, stamp := c.stamps + 1 }
  have hnodup : (c.entries.map CacheEntry.uri).Nodup := (h.perm.map _).nodup_iff.1 h.uris
  have hticked : Ordered { c with stamps := c.stamps + 1 } es :=
    h.mono (.refl _) (Nat.le_succ _) le_rfl
  have hput := hticked.put (e := used)
    (fun e' he' => Nat.lt_succ_of_le (h.stamp_le e' he')) le_rfl rfl
  exact hput.mono (map_perm_filter hnodup (h.perm.mem_iff.1 he) fun e' =>
    { e' with lastUse := c.now, stamp := c.stamps + 1 }).symm le_rfl le_rfl

theorem leastRecent?_le (h : leastRecent? es = some e) : ∀ e' ∈ es, e.stamp ≤ e'.stamp := by
  induction es generalizing e with
  | nil => cases h
  | cons e₀ es ih =>
    rw [leastRecent?] at h
    split at h
    · next hnone =>
      cases h
      rw [leastRecent?_eq_none hnone]
      simp
    · next other hother =>
      have hle := ih hother
      split at h <;> cases h
      · next hleast =>
        exact List.forall_mem_cons.2 ⟨le_rfl, fun e' he' => hleast.trans (hle e' he')⟩
      · next hmore => exact List.forall_mem_cons.2 ⟨(not_le.1 hmore).le, hle⟩

/-- The entry with the least stamp is the first in order. -/
theorem Ordered.leastRecent?_eq (h : c.Ordered es) : leastRecent? c.entries = es.head? := by
  cases hleast : leastRecent? c.entries with
  | none =>
    have hnil : es = [] := List.Perm.eq_nil (leastRecent?_eq_none hleast ▸ h.perm)
    rw [hnil, List.head?_nil]
  | some e =>
    have hmem : e ∈ es := h.perm.mem_iff.2 (mem_of_leastRecent? hleast)
    cases es with
    | nil => cases hmem
    | cons e₀ es =>
      have hle := leastRecent?_le hleast e₀ (h.perm.mem_iff.1 List.mem_cons_self)
      rcases List.mem_cons.1 hmem with rfl | hmem
      · rfl
      · exact absurd ((List.pairwise_cons.1 h.stamps).1 e hmem) (by omega)

/-- A full cache gives up the first entry in order. -/
theorem Ordered.evict (h : c.Ordered es) : c.evict.Ordered es.tail := by
  unfold ArtifactCache.evict
  rw [h.leastRecent?_eq]
  cases es with
  | nil => exact h
  | cons e es =>
    have hfilter : (es.filter fun e' => e'.uri ≠ e.uri) = es := by
      refine List.filter_eq_self.2 fun e' he' => ?_
      have hne : e'.uri ≠ e.uri :=
        fun heq => (List.nodup_cons.1 h.uris).1 (heq ▸ List.mem_map_of_mem he')
      simpa using hne
    have hf := h.filter fun e' => e'.uri ≠ e.uri
    rw [List.filter_cons_of_neg (by simp), hfilter] at hf
    exact hf

/-- In order of last use, the entries that are old come first. -/
theorem Ordered.filter_eq_dropWhile (h : c.Ordered es) (cutoff : Int) :
    (es.filter fun e => cutoff ≤ (e.lastUse : Int)) =
      es.dropWhile fun e => decide ((e.lastUse : Int) < cutoff) := by
  have huses := h.uses
  clear h
  induction es with
  | nil => rfl
  | cons e es ih =>
    obtain ⟨hle, huses⟩ := List.pairwise_cons.1 huses
    by_cases hold : (e.lastUse : Int) < cutoff
    · rw [List.filter_cons_of_neg (by simpa using hold),
        List.dropWhile_cons_of_pos (by simpa using hold), ih huses]
    · rw [List.dropWhile_cons_of_neg (by simpa using hold), List.filter_eq_self.2 fun e' he' => ?_]
      rcases List.mem_cons.1 he' with rfl | he'
      · simpa using hold
      · have := hle e' he'
        simp only [decide_eq_true_eq]
        omega

/-- An artifact that is behind the entry of its document is not stored. -/
theorem insert_of_isAhead {d : Document} (he : c.entry? d.uri = some e)
    (hahead : e.isAhead d = true) (a : α) :
    c.insert d a c.generation = { c with stamps := c.stamps + 1 } := by
  have hticked : entry? { c with stamps := c.stamps + 1 } d.uri = some e := he
  simp only [insert, ne_eq, not_true_eq_false, if_false, hticked, hahead, if_true]

/-- The cache once there is room for a document: if it has no entry and the cache is full, an entry
    is given up. -/
def roomFor (c : ArtifactCache α) (d : Document) : ArtifactCache α :=
  if (c.entry? d.uri).isNone && decide (c.options.maxEntries ≤ c.size) then c.evict else c

/-- Any other artifact is stored once there is room for it. -/
theorem insert_eq_put {d : Document}
    (hbehind : ∀ e, c.entry? d.uri = some e → e.isAhead d = false) (a : α) :
    c.insert d a c.generation = (roomFor { c with stamps := c.stamps + 1 } d).put
      ⟨d.uri, d.version, d.language, a, c.now, c.stamps + 1⟩ := by
  have hentry : entry? { c with stamps := c.stamps + 1 } d.uri = c.entry? d.uri := rfl
  have hsize : size { c with stamps := c.stamps + 1 } = c.size := rfl
  simp only [insert, ne_eq, not_true_eq_false, if_false, roomFor, hentry, hsize]
  cases he : c.entry? d.uri with
  | some e => simp [hbehind e he]
  | none => simp

/-- Only the entries change when one is given up. -/
theorem roomFor_eq (c : ArtifactCache α) (d : Document) :
    c.roomFor d = { c with entries := (c.roomFor d).entries } := by
  unfold roomFor evict
  split
  · split <;> rfl
  · rfl

theorem Ordered.roomFor (h : c.Ordered es) (d : Document) : (c.roomFor d).Ordered
    (if (c.entry? d.uri).isNone && decide (c.options.maxEntries ≤ es.length) then es.tail
      else es) := by
  have hsize : es.length = c.size := h.perm.length_eq
  unfold ArtifactCache.roomFor
  rw [hsize]
  split
  · exact h.evict
  · exact h

/-- Whether a tick is reached when time goes by. -/
def ticksWithin (c : ArtifactCache α) (secs : Nat) : Bool :=
  c.ticksSince.any fun start =>
    ticksUpTo start c.options.cleanupSecs c.now <
      ticksUpTo start c.options.cleanupSecs (c.now + secs)

theorem advance_eq (c : ArtifactCache α) (secs : Nat) : c.advance secs =
    if c.ticksWithin secs then
      (purge { c with now := c.now + secs } (↑(c.now + secs) - c.options.ttlSecs)).2
    else { c with now := c.now + secs } := by
  unfold advance ticksWithin
  dsimp only
  cases c.ticksSince <;> simp

end ArtifactCache

/-! ## Steps -/

namespace RecencyList

/-- A cache and a list hold the same: the entries in order are the items, the clocks agree, and
    each artifact that was made belongs to a miss or a renewal. -/
structure Matches (w : CacheWorld (σ × Nat) α) (l : RecencyList σ α) (es : List (CacheEntry α)) :
    Prop where
  ordered : w.cache.Ordered es
  items : es.map CacheEntry.item = l.items
  options : w.cache.options = l.options
  now : w.cache.now = l.now
  ticks : w.cache.ticksSince = l.ticksSince
  state : w.state = (l.state, l.misses + l.renewals)

variable {w : CacheWorld (σ × Nat) α} {l : RecencyList σ α} {es : List (CacheEntry α)}
  {d : Document} {a : α}

theorem Matches.item?_eq (h : Matches w l es) (uri : Uri) :
    l.item? uri = (w.cache.entry? uri).map CacheEntry.item := by
  rw [item?, ← h.items, List.find?_map, ← h.ordered.find?_eq]
  rfl

theorem filter_map_item (es : List (CacheEntry α)) (uri : Uri) :
    (es.map CacheEntry.item).filter (fun i => i.uri ≠ uri) =
      (es.filter fun e => e.uri ≠ uri).map CacheEntry.item := by
  rw [List.filter_map]
  rfl

/-- A lookup takes a stamp, which the list does not show. -/
theorem Matches.tick (h : Matches w l es) :
    Matches ⟨{ w.cache with stamps := w.cache.stamps + 1 }, w.state⟩ l es :=
  { h with ordered := h.ordered.mono (.refl _) (Nat.le_succ _) le_rfl }

/-- What is stored goes the same way in both. -/
theorem Matches.insert (h : Matches w l es)
    (hbehind : ∀ e, w.cache.entry? d.uri = some e → e.isAhead d = false) (a : α) :
    ∃ es', Matches ⟨w.cache.insert d a w.cache.generation, w.state⟩ (l.store d a) es' := by
  have hroom := h.tick.ordered.roomFor d
  rw [ArtifactCache.insert_eq_put hbehind]
  rw [ArtifactCache.roomFor_eq] at hroom ⊢
  refine ⟨_, hroom.put (fun e he => ?_) le_rfl rfl, ?_, h.options, h.now, h.ticks, h.state⟩
  · refine Nat.lt_succ_of_le (h.ordered.stamp_le e ?_)
    split at he
    · exact List.mem_of_mem_tail he
    · exact he
  · have hentry : ArtifactCache.entry? { w.cache with stamps := w.cache.stamps + 1 } d.uri =
      w.cache.entry? d.uri := rfl
    simp only [store, h.item?_eq, ← h.items, ← h.options, ← h.now, List.length_map,
      Option.isNone_map, hentry]
    split
    · rw [← List.map_tail, filter_map_item, List.map_append]
      rfl
    · rw [filter_map_item, List.map_append]
      rfl

/-- An item that is used goes to the end in both. -/
theorem Matches.touch (h : Matches w l es) {e : CacheEntry α} {uri : Uri}
    (he : w.cache.entry? uri = some e) :
    ∃ es', Matches ⟨ArtifactCache.touch { w.cache with stamps := w.cache.stamps + 1 } uri, w.state⟩
      (l.use e.item) es' := by
  rw [← h.ordered.find?_eq] at he
  obtain ⟨hmem, rfl⟩ := (ArtifactCache.find?_eq_some_iff_mem h.ordered.uris).1 he
  refine ⟨_, h.ordered.touch hmem, ?_, h.options, h.now, h.ticks, h.state⟩
  simp only [use, others, ← h.items, List.map_append, filter_map_item, ← h.now]
  rfl

/-- What is old is removed in both. -/
theorem Matches.purge (h : Matches w l es) (cutoff : Int) :
    (w.cache.purge cutoff).1 = (l.purge cutoff).1 ∧
      ∃ es', Matches ⟨(w.cache.purge cutoff).2, w.state⟩ (l.purge cutoff).2 es' := by
  have hf := h.ordered.filter fun e => cutoff ≤ (e.lastUse : Int)
  rw [h.ordered.filter_eq_dropWhile] at hf
  constructor
  · have hkept : (w.cache.entries.filter fun e => cutoff ≤ (e.lastUse : Int)).length = _ :=
      hf.perm.length_eq.symm
    have hall := congrArg List.length (List.takeWhile_append_dropWhile
      (p := fun e : CacheEntry α => decide ((e.lastUse : Int) < cutoff)) (l := es))
    have htake : (l.purge cutoff).1 =
        (es.takeWhile fun e : CacheEntry α => decide ((e.lastUse : Int) < cutoff)).length := by
      simp only [RecencyList.purge, ← h.items, List.takeWhile_map, List.length_map]
      rfl
    rw [List.length_append, h.ordered.perm.length_eq] at hall
    rw [htake, ArtifactCache.purge, hkept]
    omega
  · refine ⟨_, hf, ?_, h.options, h.now, h.ticks, h.state⟩
    simp only [RecencyList.purge, ← h.items, List.dropWhile_map]
    rfl

/-- What is made for a miss is counted in both. -/
theorem Matches.missed (h : Matches w l es) (maker : Maker σ α) (d : Document) :
    Matches ⟨w.cache, (maker.counted.make d w.state).2⟩
      { l with state := (maker.make d l.state).2, misses := l.misses + 1 } es :=
  { h with state := by simp only [Maker.counted, h.state, Nat.add_right_comm] }

/-- What is made for a renewal is counted in both. -/
theorem Matches.renewed (h : Matches w l es) (maker : Maker σ α) (d : Document) :
    Matches ⟨w.cache, (maker.counted.make d w.state).2⟩
      { l with state := (maker.make d l.state).2, renewals := l.renewals + 1 } es :=
  { h with state := by simp only [Maker.counted, h.state, Nat.add_assoc] }

/-- A get without an entry that serves makes the artifact and stores it. -/
theorem Matches.miss (h : Matches w l es) (maker : Maker σ α)
    (hmiss : ∀ e, w.cache.entry? d.uri = some e → e.serves d = false) :
    ∃ es', Matches
      ⟨ArtifactCache.insert { w.cache with stamps := w.cache.stamps + 1 } d
        (maker.counted.make d w.state).1
        w.cache.generation, (maker.counted.make d w.state).2⟩ (l.miss maker d).2 es' := by
  have hbehind : ∀ e, w.cache.entry? d.uri = some e → e.isAhead d = false := fun e he => by
    have hserves := hmiss e he
    simp only [CacheEntry.serves, CacheEntry.isAhead, Bool.and_eq_false_iff,
      decide_eq_false_iff_not] at hserves ⊢
    exact hserves.imp_left fun hle hlt => hle hlt.le
  obtain ⟨es', h'⟩ := h.tick.insert hbehind (maker.make d l.state).1
  have hmade : (maker.counted.make d w.state).1 = (maker.make d l.state).1 := by
    simp only [Maker.counted, h.state]
  rw [hmade]
  exact ⟨es', h'.missed maker d⟩

/-- An update of a document with an entry makes the artifact, and stores it unless the entry is
    ahead. -/
theorem Matches.renew (h : Matches w l es) (maker : Maker σ α) {e : CacheEntry α}
    (he : w.cache.entry? d.uri = some e) :
    ∃ es', Matches
      ⟨w.cache.insert d (maker.counted.make d w.state).1 w.cache.generation,
        (maker.counted.make d w.state).2⟩
      (l.renew maker d e.item) es' := by
  have hmade : (maker.counted.make d w.state).1 = (maker.make d l.state).1 := by
    simp only [Maker.counted, h.state]
  have hahead : e.isAhead d = true ↔ d.version < e.item.version ∧ e.item.language = d.language := by
    simp [CacheEntry.isAhead, CacheEntry.item]
  rw [hmade]
  by_cases hd : e.isAhead d = true
  · rw [ArtifactCache.insert_of_isAhead he hd]
    simp only [RecencyList.renew, if_pos (hahead.1 hd)]
    exact ⟨es, h.tick.renewed maker d⟩
  · have hbehind : ∀ e', w.cache.entry? d.uri = some e' → e'.isAhead d = false := fun e' he' => by
      rw [he] at he'
      cases he'
      simpa using hd
    obtain ⟨es', h'⟩ := h.insert hbehind (maker.make d l.state).1
    simp only [RecencyList.renew, if_neg (mt hahead.2 hd)]
    exact ⟨es', h'.renewed maker d⟩

/-- Time goes by in both, with a sweep in both or in none. -/
theorem Matches.advance (h : Matches w l es) (maker : Maker σ α) (secs : Nat) :
    ∃ es', Matches ⟨w.cache.advance secs, w.state⟩ (l.run maker (.advance secs)).2 es' := by
  have hlater : Matches ⟨{ w.cache with now := w.cache.now + secs }, w.state⟩
    { l with now := l.now + secs } es :=
    { h with
      ordered := h.ordered.mono (.refl _) le_rfl (Nat.le_add_right _ _)
      now := congrArg (· + secs) h.now }
  have hticks : w.cache.ticksWithin secs = l.ticksWithin secs := by
    rw [ArtifactCache.ticksWithin, ticksWithin, h.ticks, h.options, h.now]
  have hcutoff : ((w.cache.now + secs : Nat) : Int) - w.cache.options.ttlSecs =
      (l.now + secs : Nat) - l.options.ttlSecs := by
    rw [h.now, h.options]
  rw [ArtifactCache.advance_eq, hticks, hcutoff, RecencyList.run]
  by_cases hdue : l.ticksWithin secs = true
  · simp only [if_pos hdue]
    exact (hlater.purge _).2
  · simp only [if_neg hdue]
    exact ⟨es, hlater⟩

/-- **One step keeps a cache and a list alike**, and answers the same in both. -/
theorem Matches.run (h : Matches w l es) (maker : Maker σ α) {step : CacheStep}
    (hstep : step.Alone) :
    (step.run maker.counted w).1 = (l.run maker step).1 ∧
      ∃ es', Matches (step.run maker.counted w).2 (l.run maker step).2 es' := by
  cases step with
  | get d during =>
    cases (show during = [] from hstep)
    have hanswer : CacheAnswer.artifact (maker.counted.make d w.state).1 = (l.miss maker d).1 := by
      simp only [Maker.counted, h.state, RecencyList.miss]
    rw [CacheStep.run, RecencyList.run, h.item?_eq]
    simp only [ArtifactCache.lookup]
    have hentry : ArtifactCache.entry? { w.cache with stamps := w.cache.stamps + 1 } d.uri =
      w.cache.entry? d.uri := rfl
    rw [hentry]
    cases he : w.cache.entry? d.uri with
    | none => exact ⟨hanswer, h.miss maker (by simp [he])⟩
    | some e =>
      have hserves : e.serves d = true ↔ d.version ≤ e.item.version ∧
          e.item.language = d.language := by
        simp [CacheEntry.serves, CacheEntry.item]
      by_cases hd : e.serves d = true
      · simp only [Option.map_some, if_pos hd, if_pos (hserves.1 hd)]
        exact ⟨rfl, h.touch he⟩
      · simp only [Option.map_some, if_neg hd, if_neg (mt hserves.2 hd)]
        exact ⟨hanswer, h.miss maker (by simpa [he] using hd)⟩
  | update d during =>
    cases (show during = [] from hstep)
    rw [CacheStep.run, RecencyList.run, h.item?_eq]
    cases he : w.cache.entry? d.uri with
    | none => exact ⟨rfl, es, h⟩
    | some e => exact ⟨rfl, h.renew maker he⟩
  | peek uri =>
    rw [CacheStep.run, RecencyList.run, h.item?_eq, ArtifactCache.get?]
    cases w.cache.entry? uri with
    | none => exact ⟨rfl, es, h⟩
    | some e => exact ⟨rfl, es, h⟩
  | erase uri =>
    rw [CacheStep.run, RecencyList.run]
    refine ⟨rfl, _, h.ordered.filter fun e => e.uri ≠ uri, ?_, h.options, h.now, h.ticks, h.state⟩
    rw [others, ← h.items, filter_map_item]
  | configure settings =>
    rw [CacheStep.run, RecencyList.run]
    refine ⟨rfl, [], ArtifactCache.ordered_nil rfl, rfl, rfl, h.now, ?_, ?_⟩
    · simp only [ArtifactCache.configure, h.options, h.ticks, h.now]
    · simp only [Maker.counted, h.state]
  | dispose =>
    rw [CacheStep.run, RecencyList.run]
    exact ⟨rfl, [], ArtifactCache.ordered_nil rfl, rfl, h.options, h.now, rfl, h.state⟩
  | purge delay =>
    rw [CacheStep.run, RecencyList.run, h.now]
    exact ⟨congrArg CacheAnswer.count (h.purge _).1, (h.purge _).2⟩
  | advance secs =>
    rw [CacheStep.run]
    exact ⟨rfl, h.advance maker secs⟩

theorem matches_start (o : CacheOptions) (s : σ) :
    Matches ⟨.ofOptions o, (s, 0)⟩ (start o s : RecencyList σ α) [] :=
  ⟨ArtifactCache.ordered_nil rfl, rfl, rfl, rfl, rfl, rfl⟩

theorem Matches.runAll (h : Matches w l es) (maker : Maker σ α) {steps : List CacheStep}
    (hsteps : ∀ step ∈ steps, step.Alone) :
    ∃ es', Matches (CacheStep.runAll maker.counted w steps) (l.runAll maker steps) es' := by
  induction steps generalizing w l es with
  | nil => exact ⟨es, h⟩
  | cons step steps ih =>
    obtain ⟨hstep, hsteps⟩ := List.forall_mem_cons.1 hsteps
    obtain ⟨-, es', h'⟩ := h.run maker hstep
    exact ih h' hsteps

end RecencyList

/-- **A cache is a list in the order of last use.**  After any steps that do not overlap, the
    entries of the cache in the order of their stamps are the items of the list; there is one for
    each document, none was used before the ones in front of it, and there are no more than may
    be; as many artifacts were made as there were misses and renewals; and the next step is
    answered as the list answers it. -/
theorem runAll_matches_recency (maker : Maker σ α) (o : CacheOptions) (s : σ)
    (steps : List CacheStep) (hsteps : ∀ step ∈ steps, step.Alone) :
    let w := CacheStep.runAll maker.counted ⟨.ofOptions o, (s, 0)⟩ steps
    let l := (RecencyList.start o s).runAll maker steps
    (∃ es : List (CacheEntry α), es.Perm w.cache.entries ∧
      es.Pairwise (fun e e' => e.stamp < e'.stamp) ∧
      es.map CacheEntry.item = l.items) ∧
    (l.items.map CacheItem.uri).Nodup ∧ l.items.Pairwise (fun i i' => i.lastUse ≤ i'.lastUse) ∧
    w.cache.options = l.options ∧ l.items.length ≤ l.options.maxEntries ∧
    w.state = (l.state, l.misses + l.renewals) ∧
    ∀ step : CacheStep, step.Alone → (step.run maker.counted w).1 = (l.run maker step).1 := by
  intro w l
  obtain ⟨es, h⟩ := (RecencyList.matches_start o s).runAll maker hsteps
  refine ⟨⟨es, h.ordered.perm, h.ordered.stamps, h.items⟩, ?_, ?_, h.options, ?_, h.state,
    fun step hstep => (h.run maker hstep).1⟩
  · rw [← h.items, List.map_map]
    exact h.ordered.uris
  · rw [← h.items, List.pairwise_map]
    exact h.ordered.uses
  · have hstart : CacheScene.Reachable maker.counted o (s, 0) (.start o (s, 0)) := .refl
    obtain ⟨events, hreach⟩ := hstart.runAll steps
    have hroom : w.cache.size ≤ w.cache.options.maxEntries := hreach.sound.hasRoom.size_le
    rw [← h.items, ← h.options, List.length_map, h.ordered.perm.length_eq]
    exact hroom

/-- The URI of another document for samples. -/
def otherUri : Uri := ⟨['f', 'i', 'l', 'e'], some {}, .segments [['b', '.', 't', 's']], none, none⟩

/-- In a cache with room for two documents, a hit saves the older one of two from being given up
    for a third, and a purge a second later removes both that are left. -/
theorem runAll_matches_recency_hit :
    let third : Uri := ⟨['f', 'i', 'l', 'e'], some {}, .segments [['c', '.', 't', 's']], none, none⟩
    let snapshot (uri : Uri) (version : Int) (text : Text) : Document := .ofText uri "" version text
    let steps : List CacheStep :=
      [.get (snapshot pageUri 1 ['a']) [], .get (snapshot otherUri 1 ['b']) [],
      .get (snapshot pageUri 1 ['a']) [], .get (snapshot third 1 ['c']) [],
        .update (snapshot third 0 ['d']) [],
      .advance 1]
    let w := CacheStep.runAll textMaker.counted ⟨.ofOptions ⟨2, 0, 0⟩, ((), 0)⟩ steps
    (∀ step ∈ steps, step.Alone) ∧ w.cache.entries.map CacheEntry.artifact = [['a'], ['c']] ∧
      w.state.2 = 4 ∧
      ((CacheStep.purge 0).run textMaker.counted w).1 = .count 2 := by
  intro third snapshot steps w
  have halone : ∀ step ∈ steps, step.Alone := by simp [steps, CacheStep.Alone]
  have hentries : w.cache.entries.map CacheEntry.artifact = [['a'], ['c']] := by decide +kernel
  have hmade : w.state.2 = 4 := by decide +kernel
  have hcount : (((RecencyList.start ⟨2, 0, 0⟩ ()).runAll textMaker steps).purge
      (((RecencyList.start ⟨2, 0, 0⟩ ()).runAll textMaker steps).now + 0)).1 = 2 := by
    decide +kernel
  obtain ⟨-, -, -, -, -, -, hanswer⟩ := runAll_matches_recency textMaker ⟨2, 0, 0⟩ () steps halone
  have hpurge := hanswer (.purge 0) trivial
  simp only [RecencyList.run, hcount] at hpurge
  exact ⟨halone, hentries, hmade, hpurge⟩

end AnnotatedJson
