/-
  Caches under overlapping requests.

  A request that has to make its artifact is in flight from its lookup until it offers the
  artifact to the cache, and new settings reach the maker before they reach the cache.  In
  between, any other steps may run.

  * `CacheScene` is a cache with its maker, the tasks in flight and the history of what
    happened; a task is named by the place of its first event in the history;
  * `CacheScene.Step` is one atomic step, `CacheScene.Reachable` any interleaving of steps;
  * `Step.entry`, `Step.task`, `Step.grows` and `Step.justified` say once what a step can do;
  * `CacheScene.Sound` is what holds in every reachable scene: every entry stems from a request
    that began after the cache was last emptied and ended after its document was last erased;
  * `Reachable.runAll`, `Reachable.run_get`: a history of nested steps is such an interleaving.
-/
import Mathlib
import AnnotatedJson.Cache.History
import AnnotatedJson.Proofs.CacheEntries
import AnnotatedJson.Proofs.History

namespace AnnotatedJson

variable {σ α : Type}

/-! ## Steps -/

/-- What a request wants: an artifact, or a new one in place of the old. -/
inductive Purpose where
  | get
  | update
deriving DecidableEq, Repr

/-- What is in flight. -/
inductive CacheTask (α : Type) where
  /-- A request after its lookup under a generation, with the artifact once it is made. -/
  | request (document : Document) (purpose : Purpose) (generation : Nat) (artifact : Option α)
  /-- Settings that the maker has, and the cache has not yet. -/
  | configuring (settings : Settings)

/-- What happened in a step. -/
inductive CacheEvent (α : Type) where
  /-- A get found an artifact and ended with it. -/
  | found (document : Document) (artifact : α)
  /-- A request began and has to make its artifact. -/
  | began (document : Document) (purpose : Purpose)
  /-- An update of a document without an entry ended at once. -/
  | skipped (document : Document)
  /-- A request made its artifact. -/
  | made (request : Nat) (document : Document) (artifact : α)
  /-- A request offered its artifact to the cache and ended. -/
  | ended (request : Nat) (document : Document) (artifact : α)
  | peeked (uri : Uri) (answer : Option α)
  | erased (uri : Uri)
  /-- The maker took new settings. -/
  | rebound (settings : Settings)
  /-- The cache took the settings of a configuration, which ended. -/
  | configured (request : Nat)
  | disposed
  | purged (cutoff : Int)
  | waited (secs : Nat)

/-- The events that empty the cache. -/
def CacheEvent.Clears : CacheEvent α → Prop
  | .configured _ | .disposed => True
  | _ => False

/-- A cache with its maker, what is in flight, and what happened so far. -/
structure CacheScene (σ α : Type) where
  cache : ArtifactCache α
  state : σ
  tasks : Nat → Option (CacheTask α)
  history : List (CacheEvent α)

namespace CacheScene

/-- The scene before anything happened. -/
def start (o : CacheOptions) (s : σ) : CacheScene σ α := ⟨.ofOptions o, s, fun _ => none, []⟩

/-- The scene with another event in its history. -/
def log (w : CacheScene σ α) (x : CacheEvent α) : CacheScene σ α :=
  { w with history := w.history ++ [x] }

/-- The scene with a task in another state. -/
def assign (w : CacheScene σ α) (i : Nat) (t : Option (CacheTask α)) : CacheScene σ α :=
  { w with tasks := Function.update w.tasks i t }

/-- The scene with a task that begins now. -/
def launch (w : CacheScene σ α) (t : CacheTask α) : CacheScene σ α :=
  w.assign w.history.length (some t)

/-- One atomic step: what the cache does under one lock, or one use of the maker. -/
inductive Step (maker : Maker σ α) : CacheScene σ α → CacheScene σ α → Prop where
  | find {w : CacheScene σ α} {d : Document} {a : α} {c : ArtifactCache α} :
    w.cache.lookup d = (some a, c) → Step maker w ({ w with cache := c }.log (.found d a))
  | seek {w : CacheScene σ α} {d : Document} {c : ArtifactCache α} :
    w.cache.lookup d = (none, c) →
    Step maker w (({ w with cache := c }.launch (.request d .get c.generation none)).log
      (.began d .get))
  | renew {w : CacheScene σ α} {d : Document} : (w.cache.entry? d.uri).isSome →
    Step maker w ((w.launch (.request d .update w.cache.generation none)).log (.began d .update))
  | skip {w : CacheScene σ α} {d : Document} : w.cache.entry? d.uri = none →
    Step maker w (w.log (.skipped d))
  | make {w : CacheScene σ α} {i : Nat} {d : Document} {purpose : Purpose} {g : Nat} {a : α} {s : σ} :
    w.tasks i = some (.request d purpose g none) → maker.make d w.state = (a, s) →
    Step maker w
      (({ w with state := s }.assign i (some (.request d purpose g (some a)))).log (.made i d a))
  | finish {w : CacheScene σ α} {i : Nat} {d : Document} {purpose : Purpose} {g : Nat} {a : α} :
    w.tasks i = some (.request d purpose g (some a)) →
    Step maker w (({ w with cache := w.cache.insert d a g }.assign i none).log (.ended i d a))
  | peek (w : CacheScene σ α) (uri : Uri) : Step maker w (w.log (.peeked uri (w.cache.get? uri)))
  | erase (w : CacheScene σ α) (uri : Uri) :
    Step maker w ({ w with cache := w.cache.erase uri }.log (.erased uri))
  | rebind (w : CacheScene σ α) (settings : Settings) :
    Step maker w (({ w with state := maker.configure settings w.state }.launch
      (.configuring settings)).log
      (.rebound settings))
  | configure {w : CacheScene σ α} {i : Nat} {settings : Settings} :
    w.tasks i = some (.configuring settings) →
    Step maker w (({ w with cache := w.cache.configure settings.cache.options }.assign i none).log
      (.configured i))
  | dispose (w : CacheScene σ α) : Step maker w ({ w with cache := w.cache.dispose }.log .disposed)
  | purge (w : CacheScene σ α) (cutoff : Int) :
    Step maker w ({ w with cache := (w.cache.purge cutoff).2 }.log (.purged cutoff))
  | wait (w : CacheScene σ α) (secs : Nat) :
    Step maker w ({ w with cache := { w.cache with now := w.cache.now + secs } }.log (.waited secs))

/-- The scenes that some interleaving of requests leads to. -/
def Reachable (maker : Maker σ α) (o : CacheOptions) (s : σ) (w : CacheScene σ α) : Prop :=
  Relation.ReflTransGen (Step maker) (start o s) w

/-! ## What a step can do -/

section
variable {maker : Maker σ α} {w w' : CacheScene σ α}

/-- A step adds one event.  If the event empties the cache, a generation ends. -/
theorem Step.grows (h : Step maker w w') : ∃ x, w'.history = w.history ++ [x] ∧
    w.cache.generation ≤ w'.cache.generation ∧
    (x.Clears → w.cache.generation < w'.cache.generation ∧ w'.cache.entries = []) := by
  cases h with
  | @find d a c hl =>
    have hc : c.generation = w.cache.generation := by simpa [hl] using w.cache.lookup_generation d
    exact ⟨_, rfl, hc.ge, False.elim⟩
  | @seek d c hl =>
    have hc : c.generation = w.cache.generation := by simpa [hl] using w.cache.lookup_generation d
    exact ⟨_, rfl, hc.ge, False.elim⟩
  | finish => exact ⟨_, rfl, (ArtifactCache.insert_generation _ _ _ _).ge, False.elim⟩
  | configure => exact ⟨_, rfl, Nat.le_succ _, fun _ => ⟨Nat.lt_succ_self _, rfl⟩⟩
  | dispose => exact ⟨_, rfl, Nat.le_succ _, fun _ => ⟨Nat.lt_succ_self _, rfl⟩⟩
  | renew | skip | make | peek | erase | rebind | purge | wait => exact ⟨_, rfl, le_rfl, False.elim⟩

/-- After a step, an entry was there before, and not for a document erased in the step; or a
    request of the current generation ended with it. -/
theorem Step.entry {e : CacheEntry α} (h : Step maker w w') (he : e ∈ w'.cache.entries) :
    (∃ e₀ ∈ w.cache.entries, e₀.Same e ∧ w'.history ≠ w.history ++ [.erased e.uri]) ∨
    ∃ i d purpose a, w.tasks i = some (.request d purpose w.cache.generation (some a)) ∧
      e.Holds d a ∧
      w'.history = w.history ++ [.ended i d a] := by
  have same : e.Same e := ⟨rfl, rfl, rfl, rfl⟩
  cases h with
  | @find d a c hl =>
    obtain ⟨e₀, he₀, hs⟩ := ArtifactCache.mem_lookup (c := w.cache) (d := d) (by rw [hl]; exact he)
    exact .inl ⟨e₀, he₀, hs, by simp [log]⟩
  | @seek d c hl =>
    obtain ⟨e₀, he₀, hs⟩ := ArtifactCache.mem_lookup (c := w.cache) (d := d) (by rw [hl]; exact he)
    exact .inl ⟨e₀, he₀, hs, by simp [log, launch, assign]⟩
  | @finish i d purpose g a ht =>
    rcases ArtifactCache.mem_insert he with he | ⟨rfl, hd⟩
    · exact .inl ⟨e, he, same, by simp [log, assign]⟩
    · exact .inr ⟨i, d, purpose, a, ht, hd, rfl⟩
  | erase uri =>
    obtain ⟨he, huri⟩ := ArtifactCache.mem_erase.1 he
    exact .inl ⟨e, he, same, by simpa [log] using Ne.symm huri⟩
  | configure | dispose => cases he
  | purge cutoff => exact .inl ⟨e, List.mem_of_mem_filter he, same, by simp [log]⟩
  | renew | skip | make | peek | rebind | wait =>
    exact .inl ⟨e, he, same, by simp [log, launch, assign]⟩

/-- After a step, a task was there before; or it began in the step, or made its artifact. -/
theorem Step.task {i : Nat} {t : CacheTask α} (h : Step maker w w') (ht : w'.tasks i = some t) :
    w.tasks i = some t ∨
    (i = w.history.length ∧ ∃ d purpose, t = .request d purpose w'.cache.generation none ∧
      w'.history = w.history ++ [.began d purpose]) ∨
    (∃ d purpose g a, w.tasks i = some (.request d purpose g none) ∧
      t = .request d purpose g (some a) ∧
      w'.history = w.history ++ [.made i d a]) ∨
    (i = w.history.length ∧ ∃ settings, t = .configuring settings ∧
      w'.history = w.history ++ [.rebound settings]) := by
  -- A task that was assigned is the one assigned, or stands where another one was assigned.
  have assigned : ∀ {j : Nat} {u : Option (CacheTask α)}, Function.update w.tasks j u i = some t →
      (i = j ∧ u = some t) ∨ w.tasks i = some t := fun {j u} hu => by
    by_cases hij : i = j
    · subst hij
      exact .inl ⟨rfl, by simpa using hu⟩
    · exact .inr (by simpa [hij] using hu)
  cases h with
  | @seek d c hl =>
    rcases assigned ht with ⟨rfl, hu⟩ | ht
    · cases hu
      exact .inr (.inl ⟨rfl, d, .get, rfl, rfl⟩)
    · exact .inl ht
  | @renew d hd =>
    rcases assigned ht with ⟨rfl, hu⟩ | ht
    · cases hu
      exact .inr (.inl ⟨rfl, d, .update, rfl, rfl⟩)
    · exact .inl ht
  | @make j d purpose g a s hj hm =>
    rcases assigned ht with ⟨rfl, hu⟩ | ht
    · cases hu
      exact .inr (.inr (.inl ⟨d, purpose, g, a, hj, rfl, rfl⟩))
    · exact .inl ht
  | rebind settings =>
    rcases assigned ht with ⟨rfl, hu⟩ | ht
    · cases hu
      exact .inr (.inr (.inr ⟨rfl, settings, rfl, rfl⟩))
    · exact .inl ht
  | finish | configure =>
    rcases assigned ht with ⟨-, hu⟩ | ht
    · cases hu
    · exact .inl ht
  | find | skip | peek | erase | dispose | purge | wait => exact .inl ht

theorem Step.hasRoom (h : Step maker w w') (hr : w.cache.HasRoom) : w'.cache.HasRoom := by
  cases h with
  | @find d a c hl =>
    have hc := hr.lookup d
    rw [hl] at hc
    exact ⟨hc.size_le, hc.one_le⟩
  | @seek d c hl =>
    have hc := hr.lookup d
    rw [hl] at hc
    exact ⟨hc.size_le, hc.one_le⟩
  | finish => exact hr.insert _ _ _
  | erase uri => exact hr.erase uri
  | configure => exact ArtifactCache.hasRoom_configure _ _
  | dispose => exact hr.dispose
  | purge cutoff => exact hr.purge cutoff
  | renew | skip | make | peek | rebind | wait => exact ⟨hr.size_le, hr.one_le⟩

/-- What a scene must be like for an event to happen next. -/
def Justifies (w : CacheScene σ α) : CacheEvent α → Prop
  | .found d a => ∃ c, w.cache.lookup d = (some a, c)
  | .peeked uri answer => w.cache.get? uri = answer
  | .ended i d a => ∃ purpose g, w.tasks i = some (.request d purpose g (some a))
  | .configured i => ∃ settings, w.tasks i = some (.configuring settings)
  | _ => True

theorem Step.justified {x : CacheEvent α} (h : Step maker w w')
    (hx : w'.history = w.history ++ [x]) : w.Justifies x := by
  have last : ∀ {y : CacheEvent α}, w.history ++ [y] = w.history ++ [x] → y = x := fun h =>
    List.singleton_inj.1 (List.append_cancel_left h)
  cases h with
  | @find d a c hl => exact last hx ▸ ⟨c, hl⟩
  | @finish i d purpose g a ht => exact last hx ▸ ⟨purpose, g, ht⟩
  | peek uri => exact last hx ▸ rfl
  | @configure i settings ht => exact last hx ▸ ⟨settings, ht⟩
  | seek | renew | skip | make | erase | rebind | dispose | purge | wait => exact last hx ▸ trivial

end

/-! ## Histories -/

section
variable {h : List (CacheEvent α)} {x : CacheEvent α} {k : Nat}

/-- The cache was emptied at a place of the history. -/
def ClearedAt (h : List (CacheEvent α)) (k : Nat) : Prop := ∃ x, h[k]? = some x ∧ x.Clears

theorem clearedAt_concat : ClearedAt (h ++ [x]) k ↔ ClearedAt h k ∨ k = h.length ∧ x.Clears := by
  simp only [ClearedAt, event_concat]
  constructor
  · rintro ⟨y, hy | ⟨rfl, rfl⟩, hc⟩
    · exact .inl ⟨y, hy, hc⟩
    · exact .inr ⟨rfl, hc⟩
  · rintro (⟨y, hy, hc⟩ | ⟨rfl, hc⟩)
    · exact ⟨y, .inl hy, hc⟩
    · exact ⟨x, .inr ⟨rfl, rfl⟩, hc⟩

end

/-! ## Reachable scenes -/

/-- An entry stems from a request: when it began, made its artifact and ended, and for which
    document.  The cache was not emptied since it began, and the document was not erased
    since it ended. -/
structure Stems (h : List (CacheEvent α)) (e : CacheEntry α) (begun made ended : Nat)
    (d : Document) : Prop where
  begun_at : ∃ purpose, h[begun]? = some (.began d purpose)
  made_at : h[made]? = some (.made begun d e.artifact)
  ended_at : h[ended]? = some (.ended begun d e.artifact)
  begun_lt : begun < made
  made_lt : made < ended
  holds : e.Holds d e.artifact
  cleared : ∀ k, ClearedAt h k → k < begun
  erased : ∀ k, h[k]? = some (.erased e.uri) → k < ended

/-- A task began at its place in the history.  While its generation lasts, the cache was not
    emptied since then. -/
def TaskSound (h : List (CacheEvent α)) (generation : Nat) (i : Nat) : CacheTask α → Prop
  | .request d purpose g artifact => h[i]? = some (.began d purpose) ∧ g ≤ generation ∧
    (g = generation → ∀ k, ClearedAt h k → k < i) ∧
    ∀ a, artifact = some a → ∃ made, i < made ∧ h[made]? = some (.made i d a)
  | .configuring settings => h[i]? = some (.rebound settings)

/-- What holds in every reachable scene. -/
structure Sound (w : CacheScene σ α) : Prop where
  tasks : ∀ i t, w.tasks i = some t → TaskSound w.history w.cache.generation i t
  entries : ∀ e ∈ w.cache.entries, ∃ begun made ended d, Stems w.history e begun made ended d
  hasRoom : w.cache.HasRoom

section
variable {h : List (CacheEvent α)} {x : CacheEvent α} {g g' i : Nat} {t : CacheTask α}

theorem TaskSound.grow (ht : TaskSound h g i t) (hg : g ≤ g') (hx : x.Clears → g < g') :
    TaskSound (h ++ [x]) g' i t := by
  cases t with
  | request d purpose g₀ artifact =>
    obtain ⟨hbegan, hle, hcur, hmade⟩ := ht
    refine ⟨event_concat.2 (.inl hbegan), hle.trans hg, fun heq k hk => ?_, fun a ha => ?_⟩
    · rcases clearedAt_concat.1 hk with hk | ⟨-, hc⟩
      · exact hcur (by omega) k hk
      · exact absurd (hx hc) (by omega)
    · obtain ⟨made, hlt, hm⟩ := hmade a ha
      exact ⟨made, hlt, event_concat.2 (.inl hm)⟩
  | configuring settings => exact event_concat.2 (.inl ht)

theorem Stems.grow {e e' : CacheEntry α} {begun made ended : Nat} {d : Document}
    (hs : Stems h e begun made ended d) (hsame : e.Same e') (hx : ¬ x.Clears)
    (hne : x ≠ .erased e'.uri) :
    Stems (h ++ [x]) e' begun made ended d where
  begun_at := hs.begun_at.imp fun _ hb => event_concat.2 (.inl hb)
  made_at := event_concat.2 (.inl (hsame.artifact ▸ hs.made_at))
  ended_at := event_concat.2 (.inl (hsame.artifact ▸ hs.ended_at))
  begun_lt := hs.begun_lt
  made_lt := hs.made_lt
  holds := hsame.artifact ▸ hs.holds.of_same hsame
  cleared k hk := by
    rcases clearedAt_concat.1 hk with hk | ⟨-, hc⟩
    · exact hs.cleared k hk
    · exact absurd hc hx
  erased k hk := by
    rcases event_concat.1 hk with hk | ⟨-, rfl⟩
    · exact hs.erased k (hsame.uri ▸ hk)
    · exact absurd rfl hne

end

variable {maker : Maker σ α} {o : CacheOptions} {s : σ} {w w' : CacheScene σ α}

theorem sound_start (o : CacheOptions) (s : σ) : (start o s : CacheScene σ α).Sound where
  tasks i t ht := by cases ht
  entries e he := by cases he
  hasRoom := ArtifactCache.hasRoom_ofOptions o

theorem Sound.step (hw : w.Sound) (h : Step maker w w') : w'.Sound := by
  obtain ⟨x, hx, hg, hclears⟩ := h.grows
  refine ⟨fun i t ht => ?_, fun e he => ?_, h.hasRoom hw.hasRoom⟩
  · rw [hx]
    rcases h.task ht with hold | ⟨rfl, d, purpose, rfl, hbegan⟩ |
      ⟨d, purpose, g, a, hold, rfl, hmade⟩ | ⟨rfl, settings, rfl, hrebound⟩
    · exact (hw.tasks i t hold).grow hg fun hc => (hclears hc).1
    · -- The task begins with this event, after everything in the history.
      rw [← hx, hbegan]
      refine ⟨event_concat.2 (.inr ⟨rfl, rfl⟩), le_rfl, fun _ k hk => ?_, fun a ha => nomatch ha⟩
      rcases clearedAt_concat.1 hk with ⟨y, hy, -⟩ | ⟨-, hc⟩
      · exact event_lt hy
      · cases hc
    · obtain ⟨hbegan, hle, hcur, -⟩ := (hw.tasks i _ hold).grow hg fun hc => (hclears hc).1
      refine ⟨hbegan, hle, hcur, fun b hb => ⟨w.history.length, event_lt (hw.tasks i _ hold).1, ?_⟩⟩
      cases hb
      rw [← hx, hmade]
      exact event_concat.2 (.inr ⟨rfl, rfl⟩)
    · rw [← hx, hrebound]
      exact event_concat.2 (.inr ⟨rfl, rfl⟩)
  · have hkeeps : ¬ x.Clears := fun hc => by
      rw [(hclears hc).2] at he
      cases he
    rcases h.entry he with ⟨e₀, he₀, hsame, hne⟩ | ⟨i, d, purpose, a, ht, hholds, hended⟩
    · obtain ⟨begun, made, ended, d, hs⟩ := hw.entries e₀ he₀
      rw [hx] at hne ⊢
      exact ⟨begun, made, ended, d, hs.grow hsame hkeeps fun heq => hne (by rw [heq])⟩
    · -- The entry is stored by this event; its generation lasted from the lookup to now.
      obtain ⟨hbegan, -, hcur, hmade⟩ := hw.tasks i _ ht
      obtain ⟨made, hlt, hm⟩ := hmade a rfl
      cases hholds.artifact
      rw [hended]
      refine ⟨i, made, w.history.length, d, ⟨purpose, event_concat.2 (.inl hbegan)⟩,
        event_concat.2 (.inl hm),
        event_concat.2 (.inr ⟨rfl, rfl⟩), hlt, event_lt hm, hholds, fun k hk => ?_, fun k hk => ?_⟩
      · rcases clearedAt_concat.1 hk with hk | ⟨-, hc⟩
        · exact hcur rfl k hk
        · cases hc
      · rcases event_concat.1 hk with hk | ⟨-, heq⟩
        · exact event_lt hk
        · cases heq

theorem Reachable.sound (h : Reachable maker o s w) : w.Sound := by
  induction h with
  | refl => exact sound_start o s
  | tail _ hstep ih => exact ih.step hstep

/-- **Every event had its reason**: a reachable scene with the history up to the event, in which it
    could happen. -/
theorem Reachable.justified {k : Nat} {x : CacheEvent α} (h : Reachable maker o s w)
    (hx : w.history[k]? = some x) :
    ∃ w₀ : CacheScene σ α, w₀.Sound ∧ w₀.Justifies x ∧ w₀.history.length = k ∧
      w₀.history <+: w.history := by
  induction h with
  | refl => cases hx
  | @tail w w' hw hstep ih =>
    obtain ⟨y, hy, -⟩ := hstep.grows
    have hpre : w.history <+: w'.history := by rw [hy]; exact List.prefix_append _ _
    rw [hy] at hx
    rcases event_concat.1 hx with hx | ⟨rfl, rfl⟩
    · obtain ⟨w₀, hs, hj, hlen, hp⟩ := ih hx
      exact ⟨w₀, hs, hj, hlen, hp.trans hpre⟩
    · exact ⟨w, Reachable.sound hw, hstep.justified hy, rfl, hpre⟩

/-! ## Answers -/

/-- The get that began at a place of the history was answered, at the same place or at a later
    one. -/
inductive Answers (h : List (CacheEvent α)) : Nat → Nat → Document → α → Prop where
  | found {l : Nat} {d : Document} {a : α} : h[l]? = some (.found d a) → Answers h l l d a
  | ended {l r : Nat} {d : Document} {a : α} :
    h[l]? = some (.began d .get) → h[r]? = some (.ended l d a) → Answers h l r d a

/-! ## Nested steps -/

/-- No task is named by a place that the history has not reached. -/
def Fresh (w : CacheScene σ α) : Prop := ∀ i, w.history.length ≤ i → w.tasks i = none

theorem Sound.fresh (hw : w.Sound) : w.Fresh := fun i hi => by
  cases ht : w.tasks i with
  | none => rfl
  | some t =>
    have hplace : ∃ x, w.history[i]? = some x := by
      cases t with
      | request d purpose g artifact => exact ⟨_, (hw.tasks i _ ht).1⟩
      | configuring settings => exact ⟨_, hw.tasks i _ ht⟩
    obtain ⟨x, hx⟩ := hplace
    exact absurd (event_lt hx) (by omega)

theorem Fresh.later (hw : w.Fresh) (v : CacheWorld σ α) (events : List (CacheEvent α)) :
    Fresh ⟨v.cache, v.state, w.tasks, w.history ++ events⟩ := fun i hi => hw i (by
  simp only [List.length_append] at hi
  omega)

/-- After a task that began now has ended, the tasks are as before. -/
theorem Fresh.tasks_eq (hw : w.Fresh) (t : Option (CacheTask α)) :
    Function.update (Function.update w.tasks w.history.length t) w.history.length none =
      w.tasks := by
  rw [Function.update_idem, ← hw w.history.length le_rfl, Function.update_eq_self]

/-- Steps lead from a scene to a cache and a maker, with nothing new in flight; these events
    happen. -/
def Leads (maker : Maker σ α) (w : CacheScene σ α) (v : CacheWorld σ α)
    (events : List (CacheEvent α)) : Prop :=
  Relation.ReflTransGen (Step maker) w ⟨v.cache, v.state, w.tasks, w.history ++ events⟩

theorem Leads.trans {v u : CacheWorld σ α} {events later : List (CacheEvent α)}
    (h : Leads maker w v events)
    (h' : Leads maker ⟨v.cache, v.state, w.tasks, w.history ++ events⟩ u later) :
    Leads maker w u (events ++ later) := by
  unfold Leads at h' ⊢
  rw [← List.append_assoc]
  exact Relation.ReflTransGen.trans h h'

/-- A request runs from its lookup to its end, with other steps in between. -/
theorem leads_request {d : Document} {purpose : Purpose} {g : Nat} {c : ArtifactCache α}
    {a : α} {s : σ} {during : List CacheStep} (hw : w.Fresh) (hmake : maker.make d w.state = (a, s))
    (hbegin : Step maker w (({ w with cache := c }.launch (.request d purpose g none)).log
    (.began d purpose)))
    (hduring : ∀ v : CacheScene σ α, v.Fresh →
      ∃ events, Leads maker v (CacheStep.runAll maker ⟨v.cache, v.state⟩ during) events) :
    ∃ events, Leads maker w
      ⟨(CacheStep.runAll maker ⟨c, s⟩ during).cache.insert d a g,
        (CacheStep.runAll maker ⟨c, s⟩ during).state⟩
      (.began d purpose :: .made w.history.length d a :: events ++
        [.ended w.history.length d a]) := by
  -- The scenes after the lookup, after the making, and after the other steps.
  let begun : CacheScene σ α := ⟨c, w.state,
    Function.update w.tasks w.history.length (some (.request d purpose g none)),
      w.history ++ [.began d purpose]⟩
  let made : CacheScene σ α := ⟨c, s,
    Function.update w.tasks w.history.length (some (.request d purpose g (some a))),
    w.history ++ [.began d purpose] ++ [.made w.history.length d a]⟩
  have hmade : Step maker begun made := by
    have hstep := Step.make (w := begun) (i := w.history.length) (Function.update_self ..) hmake
    simpa only [log, assign, begun, Function.update_idem] using hstep
  have hfresh : made.Fresh := fun i hi => by
    simp only [made, List.length_append, List.length_singleton] at hi
    have hne : i ≠ w.history.length := by omega
    exact (Function.update_of_ne hne _ _).trans (hw i (by omega))
  obtain ⟨events, hevents⟩ := hduring made hfresh
  generalize CacheStep.runAll maker ⟨c, s⟩ during = v at hevents ⊢
  have hend : Step maker ⟨v.cache, v.state, made.tasks, made.history ++ events⟩
      ⟨v.cache.insert d a g, v.state, Function.update made.tasks w.history.length none,
        made.history ++ events ++ [.ended w.history.length d a]⟩ :=
          .finish (Function.update_self ..)
  refine ⟨events, ((Relation.ReflTransGen.single hbegin).tail hmade).trans (hevents.tail ?_)⟩
  simpa only [made, hw.tasks_eq, List.append_assoc, List.cons_append, List.nil_append] using hend

theorem leads_configure (hw : w.Fresh) (settings : Settings) :
    Leads maker w ⟨w.cache.configure settings.cache.options, maker.configure settings w.state⟩
      [.rebound settings, .configured w.history.length] := by
  have hbegin : Step maker w ⟨w.cache, maker.configure settings w.state,
      Function.update w.tasks w.history.length (some (.configuring settings)),
      w.history ++ [.rebound settings]⟩ := .rebind w settings
  have hend : Step maker _ ⟨w.cache.configure settings.cache.options,
      maker.configure settings w.state,
      Function.update (Function.update w.tasks w.history.length (some (.configuring settings)))
        w.history.length none,
      w.history ++ [.rebound settings] ++ [.configured w.history.length]⟩ :=
    .configure (w := ⟨w.cache, maker.configure settings w.state, _, _⟩) (Function.update_self ..)
  rw [hw.tasks_eq, List.append_assoc] at hend
  exact (Relation.ReflTransGen.single hbegin).tail hend

/-- The passing of time is a wait, or a wait and a sweep. -/
theorem leads_advance (w : CacheScene σ α) (secs : Nat) :
    ∃ events, Leads maker w ⟨w.cache.advance secs, w.state⟩ events := by
  have hwait : Step maker w ⟨{ w.cache with now := w.cache.now + secs }, w.state, w.tasks,
      w.history ++ [.waited secs]⟩ := .wait w secs
  unfold ArtifactCache.advance
  dsimp only
  split
  · exact ⟨[.waited secs], .single hwait⟩
  · split
    · refine ⟨[.waited secs] ++
        [.purged (((w.cache.now + secs : Nat) : Int) - w.cache.options.ttlSecs)], ?_⟩
      unfold Leads
      rw [← List.append_assoc]
      exact (Relation.ReflTransGen.single hwait).tail (.purge _ _)
    · exact ⟨[.waited secs], .single hwait⟩

mutual

/-- **Nested steps are an interleaving.**  A step with steps inside it is a run of atomic steps
    that ends with the same cache and maker. -/
theorem run_interleaves (maker : Maker σ α) : ∀ (step : CacheStep) (w : CacheScene σ α), w.Fresh →
    ∃ events, Leads maker w (step.run maker ⟨w.cache, w.state⟩).2 events
  | .get d during, w, hw => by
    rw [CacheStep.run]
    split
    · next a c hl => exact ⟨[.found d a], .single (.find hl)⟩
    · next c hl =>
      obtain ⟨events, h⟩ := leads_request hw rfl (.seek hl) (runAll_interleaves maker during)
      exact ⟨_, h⟩
  | .update d during, w, hw => by
    rw [CacheStep.run]
    split
    · next hentry =>
      obtain ⟨events, h⟩ := leads_request hw rfl (.renew hentry) (runAll_interleaves maker during)
      exact ⟨_, h⟩
    · next hentry => exact ⟨[.skipped d], .single (.skip (by simpa using hentry))⟩
  | .peek uri, w, _ => by
    refine ⟨[.peeked uri (w.cache.get? uri)], .single ?_⟩
    rw [CacheStep.run]
    split <;> exact .peek w uri
  | .erase uri, w, _ => ⟨[.erased uri], .single (by rw [CacheStep.run]; exact .erase w uri)⟩
  | .configure settings, w, hw => ⟨_, by rw [CacheStep.run]; exact leads_configure hw settings⟩
  | .dispose, w, _ => ⟨[.disposed], .single (by rw [CacheStep.run]; exact .dispose w)⟩
  | .purge delay, w, _ =>
    ⟨[.purged (w.cache.now + delay)], .single (by rw [CacheStep.run]; exact .purge w _)⟩
  | .advance secs, w, _ => by
    rw [CacheStep.run]
    exact leads_advance w secs

theorem runAll_interleaves (maker : Maker σ α) :
    ∀ (steps : List CacheStep) (w : CacheScene σ α), w.Fresh →
    ∃ events, Leads maker w (CacheStep.runAll maker ⟨w.cache, w.state⟩ steps) events
  | [], w, _ => by
    refine ⟨[], ?_⟩
    simp only [CacheStep.runAll, Leads, List.append_nil]
    exact .refl
  | step :: steps, w, hw => by
    obtain ⟨events, h⟩ := run_interleaves maker step w hw
    obtain ⟨later, h'⟩ :=
      runAll_interleaves maker steps _ (hw.later (step.run maker ⟨w.cache, w.state⟩).2 events)
    exact ⟨events ++ later, h.trans h'⟩

end

/-- A history of nested steps that starts in a reachable scene ends in one. -/
theorem Reachable.runAll (hw : Reachable maker o s w) (steps : List CacheStep) :
    ∃ events, Reachable maker o s ⟨(CacheStep.runAll maker ⟨w.cache, w.state⟩ steps).cache,
      (CacheStep.runAll maker ⟨w.cache, w.state⟩ steps).state, w.tasks, w.history ++ events⟩ := by
  obtain ⟨events, h⟩ := runAll_interleaves maker steps w hw.sound.fresh
  exact ⟨events, Relation.ReflTransGen.trans hw h⟩

/-- What a nested get answers is the answer of its request in the interleaving. -/
theorem Reachable.run_get (hw : Reachable maker o s w) (d : Document) (during : List CacheStep) :
    ∃ events r a, Reachable maker o s
      ⟨((CacheStep.get d during).run maker ⟨w.cache, w.state⟩).2.cache,
        ((CacheStep.get d during).run maker ⟨w.cache, w.state⟩).2.state, w.tasks,
          w.history ++ events⟩ ∧
      ((CacheStep.get d during).run maker ⟨w.cache, w.state⟩).1 = .artifact a ∧
      Answers (w.history ++ events) w.history.length r d a := by
  rw [CacheStep.run]
  split
  · next a c hl =>
    exact ⟨[.found d a], w.history.length, a, Relation.ReflTransGen.tail hw (.find hl), rfl,
      .found (by simp)⟩
  · next c hl =>
    obtain ⟨events, h⟩ :=
      leads_request hw.sound.fresh rfl (.seek hl) (runAll_interleaves maker during)
    refine ⟨_, w.history.length + (events.length + 2), _, Relation.ReflTransGen.trans hw h, rfl,
      .ended (by simp) ?_⟩
    simp

end CacheScene

end AnnotatedJson
