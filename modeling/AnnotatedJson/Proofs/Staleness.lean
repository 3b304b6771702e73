/-
  What a cache may serve after its settings changed, and after a document was erased.

  * `InForce` names the settings that the maker works with at a place of a history, and
    `MadeSince` says that an artifact was made under settings that are new enough;
  * `no_stale_settings`: what is served after a configuration has ended was made under its settings
    or newer ones; every entry holds what was made for it; and the cache never holds too much;
  * `erase_undone`: a request in flight brings an erased document back;
  * `erased_stays_erased`: without such a request, what is served after the erasure was made from a
    snapshot that was asked for after it.
-/
import Mathlib
import AnnotatedJson.Proofs.Interleaving

namespace AnnotatedJson

open CacheScene

variable {σ α : Type} {maker : Maker σ α} {o : CacheOptions} {s : σ} {w w₀ : CacheScene σ α}
variable {h : List (CacheEvent α)} {p q m r : Nat} {a : α}

/-! ## Settings in force -/

/-- The settings that the maker has at a place of a history came at another place: the last one
    before at which the maker took settings. -/
structure InForce (h : List (CacheEvent α)) (m source : Nat) : Prop where
  before : source < m
  rebound : ∃ settings, h[source]? = some (.rebound settings)
  last : ∀ k, source < k → k < m → ∀ settings, h[k]? ≠ some (.rebound settings)

/-- An artifact was made before a place, under settings no older than those that came at
    another. -/
def MadeSince (h : List (CacheEvent α)) (q r : Nat) (a : α) : Prop :=
  ∃ m request d source, m < r ∧ h[m]? = some (.made request d a) ∧ InForce h m source ∧ q ≤ source

theorem exists_inForce {settings : Settings} (hq : h[q]? = some (.rebound settings)) (hm : q < m) :
    ∃ source, InForce h m source ∧ q ≤ source := by
  induction m with
  | zero => omega
  | succ m ih =>
    by_cases hlast : ∃ settings, h[m]? = some (.rebound settings)
    · exact ⟨m, ⟨Nat.lt_succ_self m, hlast, fun k h1 h2 => by omega⟩, Nat.le_of_lt_succ hm⟩
    · have hne : q ≠ m := by
        rintro rfl
        exact hlast ⟨settings, hq⟩
      obtain ⟨source, hs, hle⟩ := ih (by omega)
      refine ⟨source, ⟨hs.before.trans (Nat.lt_succ_self m), hs.rebound,
        fun k h1 h2 settings hk => ?_⟩, hle⟩
      rcases Nat.eq_or_lt_of_le (Nat.le_of_lt_succ h2) with rfl | h2
      · exact hlast ⟨settings, hk⟩
      · exact hs.last k h1 h2 settings hk

/-- The settings of a configuration came before it ended. -/
theorem rebound_of_configured (hw : Reachable maker o s w)
    (hp : w.history[p]? = some (.configured q)) :
    q < p ∧ ∃ settings, w.history[q]? = some (.rebound settings) := by
  obtain ⟨w₀, hs, ⟨settings, ht⟩, hlen, hpre⟩ := hw.justified hp
  have hq : w₀.history[q]? = some (.rebound settings) := hs.tasks q _ ht
  exact ⟨hlen ▸ event_lt hq, settings, event_later hpre hq⟩

/-- A request that ended had made its artifact after it began. -/
theorem made_of_ended {l : Nat} {d : Document} (hw : Reachable maker o s w)
    (hended : w.history[r]? = some (.ended l d a)) :
    ∃ m, l < m ∧ m < r ∧ w.history[m]? = some (.made l d a) := by
  obtain ⟨w₀, hs, ⟨purpose, g, ht⟩, rfl, hpre⟩ := hw.justified hended
  obtain ⟨-, -, -, hmade⟩ := hs.tasks l _ ht
  obtain ⟨m, hlm, hm⟩ := hmade a rfl
  exact ⟨m, hlm, event_lt hm, event_later hpre hm⟩

/-- What an earlier scene held after the cache was emptied was made after that. -/
theorem made_after_clearing (hs : w₀.Sound) (hpre : w₀.history <+: w.history)
    (hp : ClearedAt w.history p)
    (hlt : p < w₀.history.length) {e : CacheEntry α} (he : e ∈ w₀.cache.entries) :
    ∃ m request d, p < m ∧ m < w₀.history.length ∧
      w.history[m]? = some (.made request d e.artifact) := by
  obtain ⟨begun, made, ended, d, hst⟩ := hs.entries e he
  obtain ⟨x, hx, hc⟩ := hp
  have hbegun := hst.cleared p ⟨x, event_earlier hpre hx hlt, hc⟩
  exact ⟨made, begun, d, hbegun.trans hst.begun_lt, event_lt hst.made_at,
    event_later hpre hst.made_at⟩

/-- **No stale settings.**  In any interleaving of requests: once a configuration has ended, a get
    that begins later is answered, and a later look at the cache is too, with an artifact made
    under the settings of that configuration or newer ones, and all entries hold such artifacts;
    every entry holds what was made from a snapshot with its URI, version and language; and the
    cache never holds more than its options allow. -/
theorem no_stale_settings (hw : Reachable maker o s w) :
    (∀ p q : Nat, w.history[p]? = some (.configured q) →
      (∀ l r d a, p < l → Answers w.history l r d a → MadeSince w.history q r a) ∧
      (∀ (l : Nat) (uri : Uri) (a : α), p < l → w.history[l]? = some (.peeked uri (some a)) →
        MadeSince w.history q l a) ∧
      ∀ e ∈ w.cache.entries, MadeSince w.history q w.history.length e.artifact) ∧
    (∀ e ∈ w.cache.entries, ∃ (m request : Nat) (d : Document),
      w.history[m]? = some (.made request d e.artifact) ∧
      d.uri = e.uri ∧ d.version = e.version ∧ d.language = e.language) ∧
    w.cache.size ≤ w.cache.options.maxEntries ∧ 1 ≤ w.cache.options.maxEntries := by
  have hsound := hw.sound
  refine ⟨fun p q hp => ?_, fun e he => ?_, hsound.hasRoom.size_le, hsound.hasRoom.one_le⟩
  · obtain ⟨hqp, settings, hq⟩ := rebound_of_configured hw hp
    have hclear : ClearedAt w.history p := ⟨_, hp, trivial⟩
    have since : ∀ {m r request d a}, p < m → m < r → w.history[m]? = some (.made request d a) →
        MadeSince w.history q r a := fun {m r request d a} hpm hmr hm => by
      obtain ⟨source, hforce, hle⟩ := exists_inForce hq (hqp.trans hpm)
      exact ⟨m, request, d, source, hmr, hm, hforce, hle⟩
    refine ⟨fun l r d a hl hans => ?_, fun l uri a hl hpeek => ?_, fun e he => ?_⟩
    · cases hans with
      | found hfound =>
        obtain ⟨w₀, hs, ⟨c, hlook⟩, rfl, hpre⟩ := hw.justified hfound
        obtain ⟨e, he, -, -, rfl⟩ := ArtifactCache.lookup_some hlook
        obtain ⟨m, request, d', hpm, hml, hm⟩ := made_after_clearing hs hpre hclear hl he
        exact since hpm hml hm
      | ended hbegan hended =>
        obtain ⟨m, hlm, hmr, hm⟩ := made_of_ended hw hended
        exact since (hl.trans hlm) hmr hm
    · obtain ⟨w₀, hs, hget, rfl, hpre⟩ := hw.justified hpeek
      obtain ⟨e, he, -, rfl⟩ := ArtifactCache.get?_eq_some hget
      obtain ⟨m, request, d, hpm, hml, hm⟩ := made_after_clearing hs hpre hclear hl he
      exact since hpm hml hm
    · obtain ⟨m, request, d, hpm, hml, hm⟩ :=
        made_after_clearing hsound (List.prefix_refl _) hclear (event_lt hp) he
      exact since hpm hml hm
  · obtain ⟨begun, made, ended, d, hst⟩ := hsound.entries e he
    exact ⟨made, begun, d, hst.made_at, hst.holds.uri.symm, hst.holds.version.symm,
      hst.holds.language.symm⟩

/-- The URI of a document for samples. -/
def pageUri : Uri := ⟨['f', 'i', 'l', 'e'], some {}, .segments [['a', '.', 't', 's']], none, none⟩

/-- A snapshot of that document. -/
def page (version : Int) (text : Text) : Document := .ofText pageUri "typescript" version text

/-- A maker whose artifacts are its number of bindings. -/
def bindingCounter : Maker Nat Nat :=
  ⟨fun _ n => (n, n), fun settings _ => settings.bindings.length⟩

/-- A get is under way while a configuration begins and ends: what it made is dropped, and what
    is found later was made after that. -/
theorem no_stale_settings_overlap : ∃ w : CacheScene Nat Nat, Reachable bindingCounter
    ⟨1, 0, 0⟩ 0 w ∧
    w.history[3]? = some (.configured 1) ∧ w.history[8]? = some (.found (page 1 []) 1) ∧
    MadeSince w.history 1 8 1 := by
  have hrun : Reachable bindingCounter ⟨1, 0, 0⟩ 0 _ :=
    (((((((((Relation.ReflTransGen.refl.tail (.seek (d := page 1 []) rfl)).tail (.rebind _ {})).tail
      (.make (i := 0) rfl rfl)).tail (.configure (i := 1) rfl)).tail (.finish (i := 0) rfl)).tail
      (.seek (d := page 1 []) rfl)).tail (.make (i := 5) rfl rfl)).tail (.finish (i := 5) rfl)).tail
      (.find (d := page 1 []) rfl))
  exact ⟨_, hrun, rfl, rfl, ((no_stale_settings hrun).1 3 1 rfl).1 8 8 _ 1 (by decide) (.found rfl)⟩

/-! ## Erased documents -/

/-- A maker whose artifacts are the texts of the documents. -/
def textMaker : Maker Unit Text := ⟨fun d _ => (d.text, ()), fun _ _ => ()⟩

/-- **A request in flight undoes an erasure.**  A get of version 5 looks up its document, the
    document is erased, and the get ends: the entry is there, and it answers for a new text with a
    lower version. -/
theorem erase_undone :
    let old := page 5 ['o', 'l', 'd']
    let new := page 1 ['n', 'e', 'w']
    let w := CacheStep.runAll textMaker ⟨.ofOptions ⟨5, 0, 0⟩, ()⟩ [.get old [.erase pageUri]]
    w.cache.get? pageUri = some old.text ∧ ((CacheStep.get new []).run textMaker w).1 =
      .artifact old.text :=
  ⟨rfl, rfl⟩

/-- Every request for a document that was in flight when the document was erased met a clearing of
    the cache before it ended. -/
def QuietErasure (h : List (CacheEvent α)) (p : Nat) (uri : Uri) : Prop :=
  ∀ l r d purpose a, l < p → p < r → h[l]? = some (.began d purpose) → d.uri = uri →
    h[r]? = some (.ended l d a) → ∃ k, l < k ∧ k < r ∧ ClearedAt h k

/-- An artifact was made before a place, for a request that began after another, from a snapshot
    that may stand for a document. -/
def AskedSince (h : List (CacheEvent α)) (p r : Nat) (d : Document) (a : α) : Prop :=
  ∃ (begun made : Nat) (d' : Document) (purpose : Purpose), p < begun ∧ made < r ∧
    h[begun]? = some (.began d' purpose) ∧ h[made]? = some (.made begun d' a) ∧
    d'.uri = d.uri ∧ d.version ≤ d'.version ∧ d'.language = d.language

/-- What an earlier scene held for a document after a quiet erasure was asked for after that. -/
theorem begun_after_erasure {uri : Uri} (hs : w₀.Sound) (hpre : w₀.history <+: w.history)
    (hp : w.history[p]? = some (.erased uri)) (hlt : p < w₀.history.length)
    (hquiet : QuietErasure w.history p uri)
    {e : CacheEntry α} (he : e ∈ w₀.cache.entries) (huri : e.uri = uri) :
    ∃ begun made ended d, Stems w₀.history e begun made ended d ∧ p < begun := by
  obtain ⟨begun, made, ended, d, hst⟩ := hs.entries e he
  refine ⟨begun, made, ended, d, hst, ?_⟩
  obtain ⟨purpose, hbegan⟩ := hst.begun_at
  have hbegan' := event_later hpre hbegan
  have hended : p < ended := hst.erased p (by rw [huri]; exact event_earlier hpre hp hlt)
  by_contra hle
  have hne : begun ≠ p := by
    rintro rfl
    rw [hp] at hbegan'
    cases hbegan'
  obtain ⟨k, hk, hkr, x, hx, hc⟩ := hquiet begun ended d purpose _ (by omega) hended hbegan'
    (hst.holds.uri.symm.trans huri) (event_later hpre hst.ended_at)
  -- The cache was emptied while the request was under way, so that its entry was not kept.
  have hcleared : ClearedAt w₀.history k :=
    ⟨x, event_earlier hpre hx (hkr.trans (event_lt hst.ended_at)), hc⟩
  exact absurd (hst.cleared k hcleared) (by omega)

theorem askedSince_of_answers {uri : Uri} {l : Nat} {d : Document} (hw : Reachable maker o s w)
    (hp : w.history[p]? = some (.erased uri)) (hquiet : QuietErasure w.history p uri) (hl : p < l)
    (hans : Answers w.history l r d a) (huri : d.uri = uri) : AskedSince w.history p r d a := by
  cases hans with
  | found hfound =>
    obtain ⟨w₀, hs, ⟨c, hlook⟩, rfl, hpre⟩ := hw.justified hfound
    obtain ⟨e, he, heuri, hserves, rfl⟩ := ArtifactCache.lookup_some hlook
    obtain ⟨begun, made, ended, d', hst, hlt⟩ :=
      begun_after_erasure hs hpre hp hl hquiet he (heuri.trans huri)
    obtain ⟨purpose, hbegan⟩ := hst.begun_at
    simp only [CacheEntry.serves, Bool.and_eq_true, decide_eq_true_eq] at hserves
    exact ⟨begun, made, d', purpose, hlt, event_lt hst.made_at, event_later hpre hbegan,
      event_later hpre hst.made_at, hst.holds.uri.symm.trans heuri,
      hserves.1.trans hst.holds.version.le, hst.holds.language.symm.trans hserves.2⟩
  | ended hbegan hended =>
    obtain ⟨m, -, hmr, hm⟩ := made_of_ended hw hended
    exact ⟨l, m, d, .get, hl, hmr, hbegan, hm, rfl, le_rfl, rfl⟩

/-- **Quiet erasures last.**  After such an erasure, every entry for the document and every answer
    to a get for it comes from a request that began after the erasure; so if only one text of the
    document is asked for after it, every answer was made from that text. -/
theorem erased_stays_erased {uri : Uri} (hw : Reachable maker o s w)
    (hp : w.history[p]? = some (.erased uri))
    (hquiet : QuietErasure w.history p uri) :
    (∀ e ∈ w.cache.entries, e.uri = uri →
      ∃ begun made ended d, Stems w.history e begun made ended d ∧ p < begun) ∧
    (∀ l r d a, p < l → Answers w.history l r d a → d.uri = uri → AskedSince w.history p r d a) ∧
    ∀ text : Text, (∀ (l : Nat) (d : Document) (purpose : Purpose), p < l →
        w.history[l]? = some (.began d purpose) → d.uri = uri → d.text = text) →
      ∀ l r d a, p < l → Answers w.history l r d a → d.uri = uri →
        ∃ (made request : Nat) (d' : Document), made < r ∧
          w.history[made]? = some (.made request d' a) ∧
          d'.uri = uri ∧ d'.text = text := by
  refine ⟨fun e he huri => ?_, fun l r d a hl hans huri => ?_,
    fun text htext l r d a hl hans huri => ?_⟩
  · exact begun_after_erasure hw.sound (List.prefix_refl _) hp (event_lt hp) hquiet he huri
  · exact askedSince_of_answers hw hp hquiet hl hans huri
  · obtain ⟨begun, made, d', purpose, hlt, hmr, hbegan, hmade, huri', -⟩ :=
      askedSince_of_answers hw hp hquiet hl hans huri
    have hd' : d'.uri = uri := huri'.trans huri
    exact ⟨made, begun, d', hmr, hmade, hd', htext begun d' purpose hlt hbegan hd'⟩

/-- A get is under way while its document is erased and the cache disposed of: its artifact is
    dropped, and the new text is read. -/
theorem erased_stays_erased_disposed : ∃ w : CacheScene Unit Text, Reachable textMaker ⟨5, 0, 0⟩ () w ∧
    w.history[2]? = some (.erased pageUri) ∧ QuietErasure w.history 2 pageUri ∧
    w.history[8]? = some (.found (page 1 ['n']) ['n']) ∧
    ∃ (made request : Nat) (d : Document), made < 8 ∧
      w.history[made]? = some (.made request d ['n']) ∧
      d.uri = pageUri ∧ d.text = ['n'] := by
  let old := page 5 ['o']
  let new := page 1 ['n']
  obtain ⟨w, hrun, hw⟩ : ∃ w, Reachable textMaker ⟨5, 0, 0⟩ () w ∧ w.history =
      [.began old .get, .made 0 old ['o'], .erased pageUri, .disposed, .ended 0 old ['o'],
        .began new .get, .made 5 new ['n'], .ended 5 new ['n'], .found new ['n']] :=
    ⟨_, (((((((((Relation.ReflTransGen.refl.tail (.seek (d := old) rfl)).tail
      (.make (i := 0) rfl rfl)).tail
      (.erase _ pageUri)).tail (.dispose _)).tail (.finish (i := 0) rfl)).tail
      (.seek (d := new) rfl)).tail (.make (i := 5) rfl rfl)).tail (.finish (i := 5) rfl)).tail
      (.find (d := new) rfl)), rfl⟩
  have hquiet : QuietErasure w.history 2 pageUri := by
    intro l r d purpose a hl hr _ _ hended
    have hne : r ≠ 3 := by
      rintro rfl
      rw [hw] at hended
      cases hended
    exact ⟨3, by omega, by omega, .disposed, by rw [hw]; rfl, trivial⟩
  have htext : ∀ (l : Nat) (d : Document) (purpose : Purpose), 2 < l →
      w.history[l]? = some (.began d purpose) → d.uri = pageUri → d.text = ['n'] := by
    intro l d purpose hl hbegan _
    have hlt : l < 9 := by simpa [hw] using event_lt hbegan
    rw [hw] at hbegan
    interval_cases l <;> cases hbegan
    rfl
  have herased : w.history[2]? = some (.erased pageUri) := by rw [hw]; rfl
  have hfound : w.history[8]? = some (.found new ['n']) := by rw [hw]; rfl
  exact ⟨w, hrun, herased, hquiet, hfound,
    (erased_stays_erased hrun herased hquiet).2.2 _ htext 8 8 new _ (by decide) (.found hfound) rfl⟩

end AnnotatedJson
